/-!
# The version of the program
-/

namespace CodeAtlas

def version : String := "2.0.0"

end CodeAtlas
