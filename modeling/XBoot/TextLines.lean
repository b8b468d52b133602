import Mathlib.Algebra.Order.Ring.Nat
import Mathlib.Data.List.TakeWhile
import Mathlib.Tactic.Common

/-!
# Lines and words of texts

`str::lines`, `str::trim` and `str::split_whitespace` on the characters of a text.
-/

namespace XBoot.TextLines

/-- `char::is_whitespace`: the Unicode property White_Space. -/
def isWhitespace (c : Char) : Bool :=
  let n := c.toNat
  9 ≤ n && n ≤ 13 || n == 0x20 || n == 0x85 || n == 0xA0 || n == 0x1680 ||
    0x2000 ≤ n && n ≤ 0x200A || n == 0x2028 || n == 0x2029 || n == 0x202F || n == 0x205F || n == 0x3000

def trimStart (s : List Char) : List Char := s.dropWhile isWhitespace

def trimEnd (s : List Char) : List Char := (s.reverse.dropWhile isWhitespace).reverse

def trim (s : List Char) : List Char := trimEnd (trimStart s)

def splitWhitespace (s : List Char) : List (List Char) := (s.splitOnP isWhitespace).filter (· ≠ [])

/-- A line without the carriage return before its end. -/
def stripReturn (line : List Char) : List Char :=
  if line.getLast? = some '\r' then line.dropLast else line

/-- The lines of a text after the beginning of one. -/
def linesFrom (line : List Char) : List Char → List (List Char)
  | [] => if line = [] then [] else [line]
  | c :: rest =>
    if c = '\n' then stripReturn line :: linesFrom [] rest else linesFrom (line ++ [c]) rest

def lines (s : List Char) : List (List Char) := linesFrom [] s

theorem not_blank_of_any {s : List Char} (h : s.any isWhitespace = false) :
    ∀ c ∈ s, isWhitespace c = false := fun c hc => Bool.eq_false_iff.2 (List.any_eq_false.1 h c hc)

/-- A line break is blank. -/
theorem no_break_of_not_blank {c : Char} (h : isWhitespace c = false) : c ≠ '\n' ∧ c ≠ '\r' := by
  constructor <;> rintro rfl <;> revert h <;> decide

theorem not_blank_of_isDigit {c : Char} (h : c.isDigit = true) :
    isWhitespace c = false ∧ c ≠ '\n' ∧ c ≠ '\r' := by
  have hdigit : 48 ≤ c.toNat ∧ c.toNat ≤ 57 := Char.isDigit_iff_toNat.1 h
  have hblank : isWhitespace c = false := by
    rw [isWhitespace]
    simp only [Bool.or_eq_false_iff, Bool.and_eq_false_iff, decide_eq_false_iff_not, beq_eq_false_iff_ne]
    omega
  exact ⟨hblank, no_break_of_not_blank hblank⟩

/-- The text begins and ends with characters that are not white space. -/
structure Tight (s : List Char) : Prop where
  head {c : Char} : s.head? = some c → isWhitespace c = false
  last {c : Char} : s.getLast? = some c → isWhitespace c = false

variable {s t blanks blanks' : List Char}

theorem trimStart_eq (hb : ∀ c ∈ blanks, isWhitespace c = true)
    (hs : ∀ c, s.head? = some c → isWhitespace c = false) : trimStart (blanks ++ s) = s := by
  rw [trimStart, List.dropWhile_append_of_pos hb]
  cases s with
  | nil => rfl
  | cons c rest => rw [List.dropWhile_cons_of_neg (by simp [hs c rfl])]

theorem trimEnd_eq (hb : ∀ c ∈ blanks, isWhitespace c = true)
    (hs : ∀ c, s.getLast? = some c → isWhitespace c = false) : trimEnd (s ++ blanks) = s := by
  have h : trimStart (blanks.reverse ++ s.reverse) = s.reverse :=
    trimStart_eq (fun c hc => hb c (List.mem_reverse.1 hc)) fun c hc => hs c (by simpa using hc)
  rw [trimStart] at h
  rw [trimEnd, List.reverse_append, h, List.reverse_reverse]

/-- What is left of a text is its part between the blanks. -/
theorem trim_eq (hb : ∀ c ∈ blanks, isWhitespace c = true) (hs : Tight s)
    (hb' : ∀ c ∈ blanks', isWhitespace c = true) : trim (blanks ++ s ++ blanks') = s := by
  rw [trim]
  rcases eq_or_ne s [] with rfl | hne
  · have hall : ∀ c ∈ blanks ++ [] ++ blanks', isWhitespace c = true := by
      intro c hc
      rw [List.append_nil] at hc
      exact (List.mem_append.1 hc).elim (hb c) (hb' c)
    have hnone : trimStart (blanks ++ [] ++ blanks' ++ []) = [] := trimStart_eq hall (by simp)
    rw [List.append_nil] at hnone
    rw [hnone]
    rfl
  · have hhead : ∀ c, (s ++ blanks').head? = some c → isWhitespace c = false := by
      intro c hc
      rw [List.head?_append, List.head?_eq_some_head hne, Option.some_or,
        ← List.head?_eq_some_head hne] at hc
      exact hs.head hc
    rw [List.append_assoc, trimStart_eq hb hhead, trimEnd_eq hb' fun c => hs.last]

theorem trim_tight (hs : Tight s) : trim s = s := by
  have h : trim ([] ++ s ++ []) = s := trim_eq (by simp) hs (by simp)
  rwa [List.nil_append, List.append_nil] at h

theorem splitWhitespace_word (hne : s ≠ []) (hs : ∀ c ∈ s, isWhitespace c = false) :
    splitWhitespace s = [s] := by
  rw [splitWhitespace, List.splitOnP_eq_singleton hs]
  simp [hne]

/-- A word and what follows the blank after it. -/
theorem splitWhitespace_cons {c : Char} (hne : s ≠ []) (hs : ∀ c ∈ s, isWhitespace c = false)
    (hc : isWhitespace c = true) (t : List Char) :
    splitWhitespace (s ++ c :: t) = s :: splitWhitespace t := by
  have hword := splitWhitespace_word hne hs
  rw [splitWhitespace] at hword
  rw [splitWhitespace, List.splitOnP_append_cons s t hc, List.filter_append, hword]
  rfl

theorem linesFrom_append (hs : ∀ c ∈ s, c ≠ '\n') (line t : List Char) :
    linesFrom line (s ++ t) = linesFrom (line ++ s) t := by
  induction s generalizing line with
  | nil => rw [List.nil_append, List.append_nil]
  | cons c rest ih =>
    rw [List.cons_append, linesFrom, if_neg (hs c List.mem_cons_self),
      ih fun c hc => hs c (List.mem_cons_of_mem _ hc), List.append_assoc, List.singleton_append]

/-- Lines that are written with a newline each are read back. -/
theorem lines_flatMap {ls : List (List Char)} (h : ∀ line ∈ ls, ∀ c ∈ line, c ≠ '\n' ∧ c ≠ '\r') :
    lines (ls.flatMap (· ++ ['\n'])) = ls := by
  rw [lines]
  induction ls with
  | nil => rfl
  | cons line rest ih =>
    have hline := h line List.mem_cons_self
    have hlast : line.getLast? ≠ some '\r' := fun hr => (hline _ (List.mem_of_getLast? hr)).2 rfl
    rw [List.flatMap_cons, List.append_assoc, linesFrom_append (fun c hc => (hline c hc).1),
      List.nil_append, List.singleton_append, linesFrom, if_pos rfl, stripReturn, if_neg hlast,
      ih fun l hl => h l (List.mem_cons_of_mem _ hl)]

end XBoot.TextLines
