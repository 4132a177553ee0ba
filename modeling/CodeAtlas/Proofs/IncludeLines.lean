import CodeAtlas.Proofs.IncludeStatements
import CodeAtlas.Proofs.PlainCode
import Mathlib.Data.List.Count

/-!
# Lines that include a file

A line of a file is cut into the same words wherever it stands (`Chars.cut_line`). If it is no
comment and no block is open before it, it is kept as code, and its words follow those of the code
before it (`CommentMarks.exists_cut_strip`). So what is found in a line `#include "name"` or
`#import "name"` is the start of the name, up to the first character that the language does not
expect in a name (`Imports.includeLine_name`). C expects hyphens there, C++ and Objective-C do not
(`Sample.includeLine_hyphen`).
-/

namespace CodeAtlas

open Chars Imports Phrase Spacing
open Text (isBlank isLineBreak)

/-! ### Lines of a text -/

namespace Chars

variable {marks cs ds : List Char}

theorem lines_append_newline (h : ∀ c ∈ cs, isLineBreak c = true → c = '\n') (ds : List Char) :
    lines (cs ++ '\n' :: ds) = lines (cs ++ ['\n']) ++ lines ds := by
  induction cs with
  | nil => simp [lines_newline, lines]
  | cons c cs ih =>
    obtain ⟨hc, hcs⟩ := List.forall_mem_cons.mp h
    by_cases hne : c = '\n'
    · rw [hne, List.cons_append, List.cons_append, lines_newline, lines_newline, ih hcs,
        List.cons_append]
    · have hbreak : isLineBreak c = false := Bool.eq_false_iff.mpr fun hb => hne (hc hb)
      have hfirst : lines (cs ++ ['\n']) ≠ [] := mt lines_eq_nil.mp (by simp)
      rw [List.cons_append, List.cons_append, lines_cons hbreak, lines_cons hbreak, ih hcs]
      cases hlines : lines (cs ++ ['\n']) with
      | nil => exact absurd hlines hfirst
      | cons line rest => rfl

def EndsLine (cs : List Char) : Prop := cs = [] ∨ cs.getLast? = some '\n'

def StartsLine (ds : List Char) : Prop := ds = [] ∨ ds.head? = some '\n'

theorem isBreak_newline (rest : List Char) :
    ∀ d ∈ ('\n' :: rest).head?, isBreak marks d = true := by
  intro d hd
  obtain rfl := Option.some.inj hd
  simp [isBreak, show isBlank '\n' = true by decide]

theorem EndsLine.cut_append (h : EndsLine cs) (ds : List Char) :
    cut marks (cs ++ ds) = cut marks cs ++ cut marks ds := by
  rcases h with rfl | hlast
  · rfl
  · obtain ⟨more, rfl⟩ := List.getLast?_eq_some_iff.mp hlast
    rw [List.append_assoc, List.singleton_append, Chars.cut_append more (isBreak_newline _),
      Chars.cut_append more (isBreak_newline _), cut_newline, cut_newline, List.append_assoc]
    rfl

theorem EndsLine.getLast?_cut (h : EndsLine cs) :
    cut marks cs = [] ∨ (cut marks cs).getLast? = some ['\n'] := by
  rcases h with rfl | hlast
  · exact .inl rfl
  · obtain ⟨more, rfl⟩ := List.getLast?_eq_some_iff.mp hlast
    rw [Chars.cut_append more (isBreak_newline _), cut_newline]
    exact .inr (by simp [cut])

theorem StartsLine.head?_cut (h : StartsLine ds) :
    cut marks ds = [] ∨ (cut marks ds).head? = some ['\n'] := by
  rcases h with rfl | hhead
  · exact .inl rfl
  · obtain ⟨more, rfl⟩ := List.head?_eq_some_iff.mp hhead
    rw [cut_newline]
    exact .inr rfl

theorem StartsLine.isBreak (h : StartsLine ds) : ∀ d ∈ ds.head?, isBreak marks d = true := by
  rcases h with rfl | hhead
  · simp
  · obtain ⟨more, rfl⟩ := List.head?_eq_some_iff.mp hhead
    exact isBreak_newline more

theorem cut_line (hcs : EndsLine cs) (line : List Char) (hds : StartsLine ds) :
    cut marks (cs ++ (line ++ ds)) = cut marks cs ++ (cut marks line ++ cut marks ds) := by
  rw [hcs.cut_append, cut_append line hds.isBreak]

end Chars

/-! ### Lines of words -/

variable {marks line : List Char} {k : String} {ws as bs : List String}

theorem spreadWords_append (us vs : List String) :
    spreadWords (us ++ vs) = spreadWords us ++ spreadWords vs := by
  simp [spreadWords, spread]

theorem toList_joinWords_append (hne : as ≠ []) (vs : List String) :
    (joinWords (as ++ vs)).toList = (joinWords as).toList ++ spreadWords vs := by
  obtain ⟨a, as, rfl⟩ := List.exists_cons_of_ne_nil hne
  rw [List.cons_append, toList_joinWords_cons, toList_joinWords_cons, spreadWords_append,
    List.append_assoc]

/-- Whether a line consists of some words, with at most a blank before and after them. -/
def IsLine (ws : List String) (line : List Char) : Prop :=
  ∃ before after, (before = [] ∨ before = [' ']) ∧ (after = [] ∨ after = [' ']) ∧
    line = before ++ ((joinWords ws).toList ++ after)

namespace CommentMarks

theorem not_isLineBreak_joinWords (hws : Pieces marks ws) (hline : "\n" ∉ ws) :
    ∀ c ∈ (joinWords ws).toList, isLineBreak c = false := by
  intro c hc
  rw [toList_joinWords] at hc
  rcases Chars.mem_join hc with hc | ⟨p, hp, hc⟩
  · rw [List.mem_singleton.mp hc]
    decide
  · obtain ⟨v, hv, rfl⟩ := List.mem_map.mp hp
    exact not_isLineBreak_of_mem (hws v hv) (fun heq => hline (heq ▸ hv)) c hc

/-- Text without line breaks is the start of a line, which goes on to the next newline among the
words. -/
theorem exists_lines_append {text : List Char} (hne : text ≠ [])
    (htext : ∀ c ∈ text, isLineBreak c = false) (hbs : bs = [] ∨ bs.head? = some "\n") :
    ∃ after rest, (after = [] ∨ after = [' ']) ∧ (bs = [] → rest = []) ∧
      Chars.lines (text ++ spreadWords bs) = (text ++ after) :: rest := by
  cases bs with
  | nil =>
    refine ⟨[], [], .inl rfl, fun _ => rfl, ?_⟩
    exact (lines_append htext hne []).trans (by simp [Chars.lines])
  | cons b bs =>
    obtain rfl : b = "\n" := Option.some.inj (hbs.resolve_left (by simp))
    refine ⟨[' '], Chars.lines (spreadWords bs), .inr rfl,
      fun hnil => absurd hnil (List.cons_ne_nil _ _), ?_⟩
    have hspread : text ++ spreadWords ("\n" :: bs) =
        (text ++ [' ']) ++ '\n' :: spreadWords bs := by
      simp [spreadWords_cons]
    have hbreak : ∀ c ∈ text ++ [' '], isLineBreak c = false :=
      List.forall_mem_append.mpr ⟨htext, by decide⟩
    rw [hspread, lines_append hbreak (by simp), lines_newline]
    simp

theorem lines_joinWords_append (has : Pieces marks as) (hlast : as.getLast? = some "\n")
    (vs : List String) :
    Chars.lines (joinWords (as ++ vs)).toList =
      Chars.lines (joinWords as).toList ++ Chars.lines (spreadWords vs) := by
  obtain ⟨as', rfl⟩ := List.getLast?_eq_some_iff.mp hlast
  have hends : ∃ text, (joinWords (as' ++ ["\n"])).toList = text ++ ['\n'] := by
    by_cases hnil : as' = []
    · rw [hnil]
      exact ⟨[], rfl⟩
    · exact ⟨(joinWords as').toList ++
        [' '], by rw [toList_joinWords_append hnil]; simp [spreadWords, spread]⟩
  obtain ⟨text, htext⟩ := hends
  have hbreaks : ∀ c ∈ text, isLineBreak c = true → c = '\n' := fun c hc =>
    newline_of_isLineBreak has c (htext ▸ List.mem_append_left _ hc)
  rw [toList_joinWords_append (by simp), htext, List.append_assoc, List.singleton_append,
    lines_append_newline hbreaks]

theorem exists_lines_line (hpieces : Pieces marks (as ++ (ws ++ bs)))
    (has : as = [] ∨ as.getLast? = some "\n") (hne : ws ≠ []) (hws : "\n" ∉ ws)
    (hbs : bs = [] ∨ bs.head? = some "\n") : ∃ line rest, IsLine ws line ∧
      (bs = [] → rest = []) ∧ Chars.lines (joinWords (as ++ (ws ++ bs))).toList =
        Chars.lines (joinWords as).toList ++ line :: rest := by
  obtain ⟨haspieces, hpieces⟩ := List.forall_mem_append.mp hpieces
  obtain ⟨hwspieces, -⟩ := List.forall_mem_append.mp hpieces
  have hink := not_isLineBreak_joinWords hwspieces hws
  obtain ⟨k, more, rfl⟩ := List.exists_cons_of_ne_nil hne
  have htext : (joinWords (k :: more)).toList ≠ [] := by
    have hk := (hwspieces k List.mem_cons_self).ne_nil
    rw [toList_joinWords_cons]
    simp [hk]
  by_cases hnil : as = []
  · obtain ⟨after, rest, hafter, hlast, hlines⟩ := exists_lines_append htext hink hbs
    refine ⟨_, rest, ⟨[], after, .inl rfl, hafter, rfl⟩, hlast, ?_⟩
    rw [hnil, List.nil_append, toList_joinWords_append hne]
    exact hlines
  · have hspread : spreadWords ((k :: more) ++ bs) =
        (' ' :: (joinWords (k :: more)).toList) ++ spreadWords bs := by
      rw [spreadWords_append, spreadWords_cons, toList_joinWords_cons, List.cons_append]
    obtain ⟨after, rest, hafter, hlast, hlines⟩ :=
      exists_lines_append (List.cons_ne_nil ' ' _) (List.forall_mem_cons.mpr ⟨by decide, hink⟩) hbs
    refine ⟨_, rest, ⟨[' '], after, .inr rfl, hafter, rfl⟩, hlast, ?_⟩
    rw [lines_joinWords_append haspieces (has.resolve_left hnil), hspread, hlines]
    rfl

/-! ### Lines that are code -/

def openAfter (m : CommentMarks) : (inBlock : Bool) → List (List Char) → Bool
  | inBlock, [] => inBlock
  | inBlock, line :: rest =>
    match m.role line with
    | .opens => openAfter m true rest
    | .closes => openAfter m false rest
    | .comment | .plain => openAfter m inBlock rest

theorem codeLinesFrom_append (m : CommentMarks) (inBlock : Bool) (ls more : List (List Char)) :
    m.codeLinesFrom inBlock (ls ++ more) =
      m.codeLinesFrom inBlock ls ++ m.codeLinesFrom (m.openAfter inBlock ls) more := by
  induction ls generalizing inBlock with
  | nil => rfl
  | cons line ls ih =>
    rw [List.cons_append, codeLinesFrom, codeLinesFrom, openAfter]
    cases m.role line with
    | opens => exact ih true
    | closes => exact ih false
    | comment => exact ih inBlock
    | plain =>
      cases inBlock with
      | true => exact ih true
      | false => exact congrArg (line :: ·) (ih false)

theorem exists_of_infix_isLine {part : List Char} (hne : part ≠ []) (hspace : ' ' ∉ part)
    (h : IsLine (k :: ws) line) (hi : part <:+: line) : ∃ w ∈ k :: ws, part <:+: w.toList := by
  obtain ⟨before, after, hbefore, hafter, rfl⟩ := h
  obtain ⟨d, more, rfl⟩ := List.exists_cons_of_ne_nil hne
  have htext : d :: more <:+: (joinWords (k :: ws)).toList := by
    have hi : d :: more <:+: (joinWords (k :: ws)).toList ++ after := by
      rcases hbefore with rfl | rfl
      · exact hi
      · refine (List.infix_cons_iff.mp hi).resolve_left fun hp => ?_
        exact hspace ((List.cons_prefix_cons.mp hp).1 ▸ List.mem_cons_self)
    rcases hafter with rfl | rfl
    · simpa using hi
    · refine (infix_of_infix_append (by simpa using hspace) hi).resolve_right fun hi => ?_
      exact hspace (List.mem_singleton.mp (hi.subset List.mem_cons_self) ▸ List.mem_cons_self)
  rw [toList_joinWords_cons] at htext
  rcases exists_of_infix_spreadWords hne hspace htext with hi | ⟨w, hw, hi⟩
  · exact ⟨k, List.mem_cons_self, hi⟩
  · exact ⟨w, List.mem_cons_of_mem k hw, hi⟩

theorem role_of_isLine (hws : Pieces marks (k :: ws)) (hk : k ≠ "\n")
    (hblock : ∀ w ∈ k :: ws, BlockFree w.toList) (hmark : ¬ ['/', '/'] <+: k.toList)
    (h : IsLine (k :: ws) line) : cStyle.role line = .plain := by
  -- a mark of a block would stand in a word
  have hfree : BlockFree line := by
    constructor
    · intro hi
      obtain ⟨w, hw, hi⟩ := exists_of_infix_isLine (by simp) (by decide) h hi
      exact (hblock w hw).start hi
    · intro hi
      obtain ⟨w, hw, hi⟩ := exists_of_infix_isLine (by simp) (by decide) h hi
      exact (hblock w hw).stop hi
  refine role_eq_plain.mpr ⟨hfree, ?_⟩
  obtain ⟨before, after, hbefore, hafter, rfl⟩ := h
  have hblanks : ∀ c ∈ before, isBlank c = true := by
    rcases hbefore with rfl | rfl <;> decide
  rw [toList_joinWords_cons, List.append_assoc]
  have hrest : spreadWords ws ++ after <+: spreadWords (ws ++ ["\n"]) := by
    rw [spreadWords_append]
    refine (List.prefix_append_right_inj _).mpr ?_
    rcases hafter with rfl | rfl <;> decide
  exact not_comment_of_first before hblanks (hws k List.mem_cons_self) hk hmark hrest

theorem cut_of_isLine (hws : Pieces marks (k :: ws)) (h : IsLine (k :: ws) line) :
    cut marks line = (k :: ws).map String.toList := by
  obtain ⟨before, after, hbefore, hafter, rfl⟩ := h
  obtain ⟨hk, hws⟩ := List.forall_mem_cons.mp hws
  have hpieces : ∀ cs ∈ ws.map String.toList, Piece marks cs := List.forall_mem_map.mpr hws
  have htext : cut marks ((joinWords (k :: ws)).toList ++ after) = (k :: ws).map String.toList := by
    rw [toList_joinWords_cons, List.append_assoc, hk.cut_append, spreadWords,
      cut_spread_append hpieces, cut_blanks hafter]
    · simp
    · exact fun d hd => head?_spreadWords_append [] hafter d hd ▸ by
        simp [isBreak, show isBlank ' ' = true by decide]
    · exact fun d hd => head?_spreadWords_append ws hafter d hd ▸ by
        simp [isBreak, show isBlank ' ' = true by decide]
  rcases hbefore with rfl | rfl
  · exact htext
  · rw [List.singleton_append, cut_blank marks (by decide) (by decide), htext]

def openAfterWords (m : CommentMarks) (words : List String) : Bool :=
  m.openAfter false (Chars.lines (joinWords words).toList)

/-- A line that is plain is kept unless a block is open before it. -/
theorem exists_codeLines_line (hpieces : Pieces marks (as ++ (k :: ws ++ bs)))
    (has : as = [] ∨ as.getLast? = some "\n") (hline : "\n" ∉ k :: ws)
    (hbs : bs = [] ∨ bs.head? = some "\n") (hblock : ∀ w ∈ k :: ws, BlockFree w.toList)
    (hmark : ¬ ['/', '/'] <+: k.toList) : ∃ line rest, IsLine (k :: ws) line ∧
      (bs = [] → rest = []) ∧ cStyle.codeLines (as ++ (k :: ws ++ bs)) = cStyle.codeLines as ++
        if cStyle.openAfterWords as then rest else line :: rest := by
  obtain ⟨line, rest, hisLine, hlast, hlines⟩ :=
    exists_lines_line hpieces has (List.cons_ne_nil k ws) hline hbs
  have hws : Pieces marks (k :: ws) :=
    fun w hw => hpieces w (List.mem_append_right _ (List.mem_append_left _ hw))
  have hk : k ≠ "\n" := fun heq => hline (heq ▸ List.mem_cons_self)
  have hrole := role_of_isLine hws hk hblock hmark hisLine
  refine ⟨line, cStyle.codeLinesFrom (cStyle.openAfterWords as) rest, hisLine,
    fun hnil => by rw [hlast hnil]; rfl, ?_⟩
  rw [codeLines, hlines, codeLinesFrom_append, codeLinesFrom, hrole, ← openAfterWords]
  cases cStyle.openAfterWords as <;> rfl

/-- Whether a line is kept as code after some other words. -/
def Keeps (m : CommentMarks) (words line : List String) : Prop :=
  m.codeLines (words ++ line) ≠ m.codeLines words

theorem openAfterWords_of_keeps (hpieces : Pieces marks (as ++ k :: ws))
    (has : as = [] ∨ as.getLast? = some "\n") (hline : "\n" ∉ k :: ws)
    (hblock : ∀ w ∈ k :: ws, BlockFree w.toList) (hmark : ¬ ['/', '/'] <+: k.toList)
    (h : cStyle.Keeps as (k :: ws)) : cStyle.openAfterWords as = false := by
  obtain ⟨line, rest, -, hlast, hcode⟩ :=
    exists_codeLines_line (by rwa [List.append_nil]) has hline (.inl rfl) hblock hmark
  refine Bool.eq_false_iff.mpr fun hopen => h ?_
  rw [List.append_nil] at hcode
  rw [hcode, if_pos hopen, hlast rfl, List.append_nil]

theorem exists_cut_strip {sub : List Char} (hsub : sub ⊆ marks)
    (hpieces : Pieces marks (as ++ (k :: ws ++ bs))) (has : as = [] ∨ as.getLast? = some "\n")
    (hline : "\n" ∉ k :: ws) (hbs : bs = [] ∨ bs.head? = some "\n")
    (hblock : ∀ w ∈ k :: ws, BlockFree w.toList) (hmark : ¬ ['/', '/'] <+: k.toList)
    (hopen : cStyle.openAfterWords as = false) : ∃ before after,
      cut sub (cStyle.strip (as ++ (k :: ws ++ bs))).toList =
        before ++ ((k :: ws).map String.toList ++ after) ∧
      before.count k.toList = (cut sub (cStyle.strip as).toList).count k.toList := by
  obtain ⟨line, rest, hisLine, -, hcode⟩ := exists_codeLines_line hpieces has hline hbs hblock hmark
  have hws : Pieces sub (k :: ws) := fun w hw =>
    (hpieces w (List.mem_append_right _ (List.mem_append_left _ hw))).mono hsub
  have hk : k ≠ "\n" := fun heq => hline (heq ▸ List.mem_cons_self)
  have hk' : k.toList ≠ ['\n'] := fun heq => hk (String.toList_inj.mp (heq.trans rfl))
  obtain ⟨after, hafter, hrest⟩ : ∃ after, StartsLine after ∧
      join ['\n'] (line :: rest) = line ++ after := by
    cases rest with
    | nil => exact ⟨[], .inl rfl, by simp [join]⟩
    | cons next rest => exact ⟨'\n' :: join ['\n'] (next :: rest), .inr rfl, by simp [join]⟩
  rw [hopen, if_neg (by decide)] at hcode
  rw [strip, strip, String.toList_ofList, String.toList_ofList, hcode]
  by_cases hnil : cStyle.codeLines as = []
  · refine ⟨[], cut sub after, ?_, by rw [hnil]; rfl⟩
    rw [hnil, List.nil_append, hrest, cut_append line hafter.isBreak, cut_of_isLine hws hisLine]
    rfl
  · refine ⟨cut sub (join ['\n'] (cStyle.codeLines as) ++ ['\n']), cut sub after, ?_, ?_⟩
    · rw [join_append _ hnil (List.cons_ne_nil line rest), hrest,
        cut_line (.inr (by simp)) line hafter, cut_of_isLine hws hisLine]
    · rw [cut_append _ (isBreak_newline _), cut_newline, List.count_append,
        List.count_cons_of_ne hk'.symm]
      rfl

end CommentMarks

/-! ### What is found in a line -/

theorem following_append (k : String) (us vs : List String) :
    following k (us ++ vs) = (following k us).map (· ++ vs) ++ following k vs := by
  induction us with
  | nil => rfl
  | cons u us ih =>
    rw [List.cons_append, following, following, ih]
    split_ifs <;> rfl

theorem length_following (k : String) (us : List String) :
    (following k us).length = us.count k := by
  induction us with
  | nil => rfl
  | cons u us ih =>
    rw [following, List.count_cons, ← ih]
    split_ifs <;> rfl

theorem Mention.exists_all_append {α : Type} (phrase : String → String → Option α)
    (us : List String) (hne : ws ≠ []) :
    ∃ mentions, all (· == k) phrase (us ++ k :: ws) = .ok mentions ∧
      mentions[us.count k]? = some (.ofOption (phrase k (joinWords (k :: ws)))) := by
  have hlone : us ++ k :: ws ≠ [k] := by
    intro heq
    have hlength := congrArg List.length heq
    have hpos := List.length_pos_iff.mpr hne
    simp only [List.length_append, List.length_cons, List.length_nil] at hlength
    omega
  refine ⟨_, by rw [all, sightings_eq hlone]; rfl, ?_⟩
  have hfollowing : (following k (us ++ k :: ws))[us.count k]? = some ws := by
    rw [following_append, List.getElem?_append_right (by simp [length_following]), following,
      if_pos (beq_self_eq_true k)]
    simp [length_following]
  rw [List.getElem?_map, List.getElem?_map, hfollowing]
  simp [hne]

namespace Imports

/-- The languages whose files name other files in lines of their own. -/
def NamesFiles (language : Language) : Prop := language = .c ∨ language = .cpp ∨ language = .objc

def includeWord : Language → String
  | .objc => "#import"
  | _ => "#include"

/-- A line that includes the file of some name. -/
def includeLine (language : Language) (name : String) : String :=
  includeWord language ++ " \"" ++ name ++ "\""

def includePhrase : Language → String → Option String
  | .objc => importedHeader?
  | language => includedName? (includeChars language)

def importMarks : Language → List Char
  | .objc => plainMarks
  | _ => quoteMarks

/-- The start of a name that is made of the characters of a name, if there is any. -/
def knownPart? (language : Language) (name : String) : Option String :=
  if leading (nameChar (nameMarks language)) name = "" then none
  else some (leading (nameChar (nameMarks language)) name)

variable {language : Language} {name : String}

theorem ofFile_eq_included (h : NamesFiles language) (ctx : ScanContext) (here : Place)
    (words : List String) :
    ofFile language ctx here words = Tallied.lift (Mention.all (· == includeWord language)
      (fun _ => includePhrase language) (codeWords language words)) >>= included ctx here := by
  rcases h with rfl | rfl | rfl <;> rfl

theorem codeWords_eq_cut (h : NamesFiles language) (words : List String) :
    codeWords language words =
      (cut (importMarks language) (CommentMarks.cStyle.strip words).toList).map String.ofList := by
  rcases h with rfl | rfl | rfl
  · exact words_withQuotes _
  · exact words_withQuotes _
  · exact words_plain _

theorem fileWords_eq_cut (h : NamesFiles language) (text : String) :
    language.fileSpacing.words text = (cut quoteMarks text.toList).map String.ofList := by
  rcases h with rfl | rfl | rfl <;> exact words_withQuotes _

theorem importMarks_subset (language : Language) : importMarks language ⊆ quoteMarks := by
  cases language <;> decide

theorem knownPart?_eq_some_self (hne : name ≠ "") :
    knownPart? language name = some name ↔
    ∀ c ∈ name.toList, nameChar (nameMarks language) c = true := by
  rw [← leading_eq_self, knownPart?]
  split_ifs with hnone
  · simp [hnone, Ne.symm hne]
  · rw [Option.some_inj]

theorem not_isPadding_of_run (hname : ∀ c ∈ name.toList, isBreak quoteMarks c = false) :
    isPadding name = false := by
  have hbreak : ∀ w ∈ ["\n", "<", ">", "\""], w.toList.any (isBreak quoteMarks) = true := by decide
  refine Bool.eq_false_iff.mpr fun hpad => ?_
  obtain ⟨c, hc, hbreak⟩ := List.any_eq_true.mp (hbreak name (by simpa [isPadding] using hpad))
  rw [hname c hc] at hbreak
  cases hbreak

theorem importedHeader?_quoted (hne : name ≠ "\n") (hname : Piece plainMarks name.toList)
    (hws : Pieces plainMarks ws) :
    importedHeader? (joinWords ("#import" :: "\"" :: name :: ws)) = knownPart? .objc name := by
  have hquote : Piece plainMarks "\"".toList := .of_run (by decide) (by decide)
  have hrest : Pieces plainMarks (name :: ws) := List.forall_mem_cons.mpr ⟨hname, hws⟩
  have hall : Pieces plainMarks ("\"" :: name :: ws) := List.forall_mem_cons.mpr ⟨hquote, hrest⟩
  have hkey : Piece plainMarks "#import".toList := .of_run (by decide) (by decide)
  obtain ⟨s, hs, hsrest⟩ := Spot.exists_keyword?_start hkey (by decide) ("\"" :: name :: ws)
  have hcode : pastNewlines ("\"" :: name :: ws) = "\"" :: name :: ws :=
    pastNewlines_cons (by decide) _
  obtain ⟨t, ht, htrest⟩ := Spot.exists_keyword?_of_code hall hsrest hcode
  have hbracket : s.keyword? "<" = none := by
    have hskip := Spot.rest_skipGaps_of_code hall hsrest hcode
    simp [Spot.keyword?, hskip]
  have hname : pastNewlines (name :: ws) = name :: ws := pastNewlines_cons hne _
  have hspace : nameChar (nameMarks .objc) ' ' = false := nameChar_space (by decide)
  rw [importedHeader?, hs, knownPart?]
  simp only [Option.bind_eq_bind, Option.bind_some, hbracket, ht, Option.none_or]
  split_ifs with hnone
  · have hword : t.word? (nameChar (nameMarks .objc)) = none := by
      refine Spot.word?_eq_none hspace hrest htrest fun w after heq => ?_
      rw [← (List.cons.inj (hname.symm.trans heq)).1]
      exact leading_eq_empty.mp hnone
    rw [show nameMarks .objc = ['.', '/', '_'] from rfl] at hword
    rw [hword]
    rfl
  · obtain ⟨u, hword, -⟩ :=
      Spot.word?_of_code hspace hrest htrest hname fun hnil => hnone (leading_eq_empty.mpr hnil)
    rw [show nameMarks .objc = ['.', '/', '_'] from rfl] at hword
    rw [hword]
    rfl

theorem includePhrase_quoted (h : NamesFiles language) (hne : name ≠ "")
    (hname : ∀ c ∈ name.toList, isBreak quoteMarks c = false)
    (hws : Pieces (importMarks language) ws) :
    includePhrase language (joinWords (includeWord language :: "\"" :: name :: ws)) =
      knownPart? language name := by
  have hpiece : Piece quoteMarks name.toList := .of_run (mt String.toList_eq_nil_iff.mp hne) hname
  have hpad := not_isPadding_of_run hname
  have hincluded : ∀ language, language ≠ .objc → Pieces quoteMarks ws →
      includedName? (includeChars language) (joinWords ("#include" :: "\"" :: name :: ws)) =
        knownPart? language name := by
    intro language hlanguage hws
    have hspace : ' ' ∉ includeChars language := by cases language <;> decide
    have hquote : Piece quoteMarks "\"".toList :=
      piece_of_mem_cut (show ['"'] ∈ cut quoteMarks ['"'] by decide)
    have hall : Pieces quoteMarks ("\"" :: name :: ws) :=
      List.forall_mem_cons.mpr ⟨hquote, List.forall_mem_cons.mpr ⟨hpiece, hws⟩⟩
    rw [includedName?_joinWords hspace hall, includedIn?_includeChars hall, includedIn?, knownPart?]
    simp [hpad, show isPadding "\"" = true by decide]
  rcases h with rfl | rfl | rfl
  · exact hincluded .c (by decide) hws
  · exact hincluded .cpp (by decide) hws
  · have hne' : name ≠ "\n" := by
      rintro rfl
      cases hname '\n' (by decide)
    exact importedHeader?_quoted hne' (hpiece.mono (importMarks_subset .objc)) hws

def lineWords (language : Language) (name : String) : List String :=
  [includeWord language, "\"", name, "\""]

theorem cut_includeLine (language : Language) (hne : name ≠ "")
    (hname : ∀ c ∈ name.toList, isBreak quoteMarks c = false) :
    cut quoteMarks (includeLine language name).toList =
      (lineWords language name).map String.toList := by
  have hquote : ∀ cs, cut quoteMarks ('"' :: cs) = ['"'] :: cut quoteMarks cs :=
    fun cs => cut_mark (by decide) (by decide) cs
  have hpiece : Piece quoteMarks name.toList := .of_run (mt String.toList_eq_nil_iff.mp hne) hname
  have hkey : Piece quoteMarks (includeWord language).toList := by
    cases language <;> exact .of_run (by decide) (by decide)
  have hline : (includeLine language name).toList =
      (includeWord language).toList ++ (' ' :: '"' :: (name.toList ++ ['"'])) := by
    simp [includeLine]
  rw [hline, hkey.cut_append (by simp [isBreak, show isBlank ' ' = true by decide]),
    cut_blank _ (by decide) (by decide), hquote,
    hpiece.cut_append (by simp [isBreak, quoteMarks]), hquote]
  rfl

theorem exists_codeWords_line (h : NamesFiles language) {pre post : String}
    (hpre : EndsLine pre.toList) (hpost : StartsLine post.toList) (hne : name ≠ "")
    (hname : ∀ c ∈ name.toList, isBreak quoteMarks c = false) (hblock : BlockFree name.toList)
    (hkept : language.comments.Keeps (language.fileSpacing.words pre)
      (language.fileSpacing.words (includeLine language name))) : ∃ before after,
      codeWords language (language.fileSpacing.words (pre ++ includeLine language name ++ post)) =
        before ++ (lineWords language name ++ after) ∧
      before.count (includeWord language) =
        (codeWords language (language.fileSpacing.words pre)).count (includeWord language) := by
  have hcomments : language.comments = .cStyle := by
    rcases h with rfl | rfl | rfl <;> rfl
  have hwords : ∀ text, language.fileSpacing.words text =
      (cut quoteMarks text.toList).map String.ofList :=
    fileWords_eq_cut h
  have hline : language.fileSpacing.words (includeLine language name) =
      lineWords language name := by
    rw [hwords, cut_includeLine language hne hname, List.map_map]
    simp [Function.comp_def]
  have hfile : language.fileSpacing.words (pre ++ includeLine language name ++ post) =
      language.fileSpacing.words pre ++
        (lineWords language name ++ language.fileSpacing.words post) := by
    rw [← hline, hwords, hwords, hwords, hwords, String.toList_append, String.toList_append,
      List.append_assoc, cut_line hpre _ hpost, List.map_append, List.map_append]
  have hpieces : Pieces quoteMarks (language.fileSpacing.words pre ++ (lineWords language name ++
      language.fileSpacing.words post)) := by
    rw [← hfile, hwords]
    exact pieces_cut _ _
  have hfirst : language.fileSpacing.words pre = [] ∨
      (language.fileSpacing.words pre).getLast? = some "\n" := by
    rw [hwords, List.map_eq_nil_iff, List.getLast?_map]
    exact hpre.getLast?_cut.imp_right fun hlast => by rw [hlast]; rfl
  have hlast : language.fileSpacing.words post = [] ∨
      (language.fileSpacing.words post).head? = some "\n" := by
    rw [hwords, List.map_eq_nil_iff, List.head?_map]
    exact hpost.head?_cut.imp_right fun hhead => by rw [hhead]; rfl
  have hnewline : "\n" ∉ lineWords language name := by
    have hname : "\n" ≠ name := by
      rintro rfl
      cases hname '\n' (by decide)
    cases language <;> simp [lineWords, includeWord, hname]
  have hblocks : ∀ w ∈ lineWords language name, BlockFree w.toList := by
    have hkey : BlockFree (includeWord language).toList :=
      .of_not_mem (by cases language <;> decide)
    have hquote : BlockFree "\"".toList := .of_not_mem (by decide)
    intro w hw
    simp only [lineWords, List.mem_cons, List.not_mem_nil, or_false] at hw
    rcases hw with rfl | rfl | rfl | rfl
    · exact hkey
    · exact hquote
    · exact hblock
    · exact hquote
  have hmark : ¬ ['/', '/'] <+: (includeWord language).toList := by cases language <;> decide
  rw [hcomments, hline] at hkept
  have hopen := CommentMarks.openAfterWords_of_keeps
    (fun w hw => hpieces w (by rw [← List.append_assoc]; exact List.mem_append_left _ hw)) hfirst
      hnewline hblocks hmark hkept
  obtain ⟨before, after, hcut, hcount⟩ :=
    CommentMarks.exists_cut_strip (importMarks_subset language) hpieces hfirst hnewline hlast
      hblocks hmark hopen
  refine ⟨before.map String.ofList, after.map String.ofList, ?_, ?_⟩
  · rw [hfile, codeWords_eq_cut h]
    refine (congrArg (List.map String.ofList) hcut).trans ?_
    simp [lineWords]
  · have hinj : Function.Injective String.ofList :=
      fun as bs hab => by simpa using congrArg String.toList hab
    rw [codeWords_eq_cut h, ← String.ofList_toList (s := includeWord language),
      List.count_map_of_injective _ _ hinj, List.count_map_of_injective _ _ hinj]
    exact hcount

/-- In a line of C, C++ or Objective-C that names a file in quotes and is kept as code, the start of
the name is found, up to the first character that the language does not expect in a name. So the
name is found as a whole exactly if all its characters are expected. What is found in the line
follows what is found in the lines before it. -/
theorem includeLine_name (language : Language) (pre name post : String)
    (hlanguage : NamesFiles language) (hpre : EndsLine pre.toList) (hpost : StartsLine post.toList)
    (hne : name ≠ "") (hname : ∀ c ∈ name.toList, isBreak quoteMarks c = false)
    (hblock : BlockFree name.toList)
    (hkept : language.comments.Keeps (language.fileSpacing.words pre)
      (language.fileSpacing.words (includeLine language name))) :
        ∃ mentions : List (Mention String),
      (∀ ctx here, ofFile language ctx here
        (language.fileSpacing.words (pre ++ includeLine language name ++ post)) =
        included ctx here mentions) ∧
      mentions[(codeWords language (language.fileSpacing.words pre)).count
        (includeWord language)]? = some (.ofOption (knownPart? language name)) ∧
      (knownPart? language name = some name ↔
        ∀ c ∈ name.toList, nameChar (nameMarks language) c = true) := by
  obtain ⟨before, after, hcode, hcount⟩ :=
    exists_codeWords_line hlanguage hpre hpost hne hname hblock hkept
  obtain ⟨mentions, hmentions, hfound⟩ :=
    Mention.exists_all_append (fun _ => includePhrase language) before
    (List.cons_ne_nil "\"" (name :: "\"" :: after)) (k := includeWord language)
  have hafter : Pieces (importMarks language) ("\"" :: after) := by
    intro w hw
    have hmem : w ∈ codeWords language
        (language.fileSpacing.words (pre ++ includeLine language name ++ post)) := by
      rw [hcode]
      exact List.mem_append_right _
        (List.mem_cons_of_mem _ (List.mem_cons_of_mem _ (List.mem_cons_of_mem _ hw)))
    rw [codeWords_eq_cut hlanguage] at hmem
    obtain ⟨cs, hcs, rfl⟩ := List.mem_map.mp hmem
    rw [String.toList_ofList]
    exact piece_of_mem_cut hcs
  refine ⟨mentions, fun ctx here => ?_, ?_, knownPart?_eq_some_self hne⟩
  · rw [ofFile_eq_included hlanguage, hcode]
    exact congrArg (fun found => Tallied.lift found >>= included ctx here) hmentions
  · rw [← hcount, hfound, includePhrase_quoted hlanguage hne hname hafter]

end Imports

namespace Sample

/-- The line is the second include that is kept as code. -/
theorem includeLine_name_sample : ∃ mentions : List (Mention String),
    (∀ ctx here, ofFile .cpp ctx here (Language.cpp.fileSpacing.words
      ("/* #include <a.h>\n*/\n#include <b.h>\n" ++ includeLine .cpp "lib/my-lib.h" ++
        "\nint x;")) = included ctx here mentions) ∧
    mentions[1]? = some (.hit "lib/my") := by
  have hkept : Language.cpp.comments.Keeps
      (Language.cpp.fileSpacing.words "/* #include <a.h>\n*/\n#include <b.h>\n")
      (Language.cpp.fileSpacing.words (includeLine .cpp "lib/my-lib.h")) := by
    rw [CommentMarks.Keeps]
    decide +kernel
  obtain ⟨mentions, hfile, hfound, -⟩ :=
    includeLine_name .cpp "/* #include <a.h>\n*/\n#include <b.h>\n" "lib/my-lib.h"
    "\nint x;" (.inr (.inl rfl)) (.inr (by decide)) (.inr (by decide)) (by decide) (by decide)
      ⟨by decide, by decide⟩ hkept
  refine ⟨mentions, hfile, ?_⟩
  have hcount : (codeWords .cpp (Language.cpp.fileSpacing.words
      "/* #include <a.h>\n*/\n#include <b.h>\n")).count (includeWord .cpp) = 1 := by
    decide +kernel
  rw [hcount] at hfound
  exact hfound

/-- A name with a hyphen is found as a whole in C, but not in C++ and Objective-C. -/
theorem includeLine_hyphen :
    (∀ ctx here, ofFile .c ctx here (Language.c.fileSpacing.words "#include \"my-lib.h\"\n") =
      included ctx here [.hit "my-lib.h"]) ∧
    (∀ ctx here, ofFile .cpp ctx here (Language.cpp.fileSpacing.words "#include \"my-lib.h\"\n") =
      included ctx here [.hit "my"]) ∧
    ∀ ctx here, ofFile .objc ctx here (Language.objc.fileSpacing.words "#import \"my-lib.h\"\n") =
      included ctx here [.hit "my"] := by
  have hfound : ∀ {language text name}, Imports.NamesFiles language →
      Mention.all (· == includeWord language) (fun _ => includePhrase language)
        (codeWords language (language.fileSpacing.words text)) = .ok [.hit name] →
      ∀ ctx here, ofFile language ctx here (language.fileSpacing.words text) =
        included ctx here [.hit name] := by
    intro language text name hlanguage hall ctx here
    rw [ofFile_eq_included hlanguage, hall]
    rfl
  refine ⟨hfound (.inl rfl) ?_, hfound (.inr (.inl rfl)) ?_, hfound (.inr (.inr rfl)) ?_⟩ <;> rfl

end Sample

end CodeAtlas
