import CodeAtlas.Value.Basic

/-!
# Things known by name

A document can name things that are not written in it: functions, types and constants of modules that are loaded when it
is read. Of the constants the values are known; of the others only that they are there.
-/

namespace CodeAtlas.Document.Names

def words (s : String) : List String := s.splitOn " "

def common : List String := words
  ("abs all any ascii bin bool breakpoint bytearray bytes callable chr classmethod compile complex delattr dict dir "
      ++ "divmod enumerate eval exec exit filter float format frozenset getattr globals hasattr hash help hex id input int "
      ++ "isinstance issubclass iter len list locals map max memoryview min next object oct open ord pow print property quit "
      ++ "range repr reversed round set setattr slice sorted staticmethod str sum super tuple type vars zip __import__ "
      ++ "aiter anext copyright credits license Ellipsis NotImplemented __build_class__ __loader__ __spec__ "
      ++ "ArithmeticError AssertionError AttributeError BaseException BaseExceptionGroup BlockingIOError "
      ++ "BrokenPipeError BufferError BytesWarning ChildProcessError ConnectionAbortedError ConnectionError "
      ++ "ConnectionRefusedError ConnectionResetError DeprecationWarning EOFError EncodingWarning "
      ++ "EnvironmentError Exception ExceptionGroup FileExistsError FileNotFoundError FloatingPointError "
      ++ "FutureWarning GeneratorExit IOError ImportError ImportWarning IndentationError IndexError "
      ++ "InterruptedError IsADirectoryError KeyError KeyboardInterrupt LookupError MemoryError "
      ++ "ModuleNotFoundError NameError NotADirectoryError NotImplementedError OSError OverflowError "
      ++ "PendingDeprecationWarning PermissionError ProcessLookupError RecursionError ReferenceError "
      ++ "ResourceWarning RuntimeError RuntimeWarning StopAsyncIteration StopIteration SyntaxError "
      ++ "SyntaxWarning SystemError SystemExit TabError TimeoutError TypeError UnboundLocalError "
      ++ "UnicodeDecodeError UnicodeEncodeError UnicodeError UnicodeTranslateError UnicodeWarning UserWarning "
      ++ "ValueError Warning ZeroDivisionError")

def functions : List (String × List String) :=
  [("builtins", common),
    ("os", words ("abort access chdir chmod environ execv fork getcwd getenv getpid kill listdir makedirs mkdir open path "
      ++ "popen putenv read remove removedirs rename replace rmdir scandir stat system unlink urandom walk write")),
    ("os.path", words ("abspath basename commonpath commonprefix dirname exists expanduser expandvars getmtime getsize isabs "
      ++ "isdir isfile islink join lexists normcase normpath realpath relpath samefile split splitext")),
    ("sys", words "argv exit getrecursionlimit getsizeof modules path setrecursionlimit stderr stdin stdout version_info"),
    ("re", words "compile escape findall finditer fullmatch match purge search split sub subn"),
    ("json", words "dump dumps load loads"),
    ("datetime", words "date datetime time timedelta timezone tzinfo"),
    ("collections", words "ChainMap Counter OrderedDict abc defaultdict deque namedtuple"),
    ("pathlib", words "Path PosixPath PurePath PurePosixPath"),
    ("shutil", words "copy copy2 copyfile copytree move rmtree which"),
    ("subprocess", words "Popen call check_call check_output run"),
    ("math", words "acos asin atan ceil cos exp floor fsum gcd isinf isnan log pow sin sqrt tan trunc")]

def constants : List (String × Value) :=
  [("builtins.True", .bool true), ("builtins.False", .bool false), ("builtins.None", .null),
    ("builtins.__debug__", .bool true), ("builtins.__name__", .text "builtins"), ("builtins.__package__", .text ""),
    ("os.curdir", .text "."), ("os.devnull", .text "/dev/null"), ("os.extsep", .text "."), ("os.linesep", .text "\n"),
    ("os.name", .text "posix"), ("os.pardir", .text ".."), ("os.pathsep", .text ":"), ("os.sep", .text "/"),
    ("os.path.curdir", .text "."), ("os.path.extsep", .text "."), ("os.path.pardir", .text ".."),
    ("os.path.pathsep", .text ":"), ("os.path.sep", .text "/"),
    ("sys.byteorder", .text "little"), ("sys.maxsize", .int 9223372036854775807), ("sys.maxunicode", .int 0x10FFFF),
    ("sys.platform", .text "linux"),
    ("math.e", .float 2.718281828459045), ("math.pi", .float 3.141592653589793), ("math.tau", .float 6.283185307179586)]

def split (name : String) : String × String :=
  match (name.splitOn ".").reverse with
  | last :: inner :: outer => (String.intercalate "." (inner :: outer).reverse, last)
  | _ => ("builtins", name)

def find? (name : String) : Option Value :=
  let (place, last) := split name
  let whole := place ++ "." ++ last
  match constants.lookup whole with
  | some v => some v
  | none => if ((functions.lookup place).getD []).contains last then some (.atom (.named whole)) else none

end CodeAtlas.Document.Names
