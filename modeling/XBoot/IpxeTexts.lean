import XBoot.BootUrls
import XBoot.TextLines

/-!
# The texts that iPXE reads

iPXE is a program of its own, and a parameter here. What it makes of a URL, a script and a SAN URI
is assumed as documented, for texts in which every word stands for itself.
-/

namespace XBoot.Boot

open Dhcp Numerals TextLines Utf8

structure Fetch where
  server : String
  port : ℕ
  request : HttpRequest
  deriving DecidableEq, Repr

structure SanTarget where
  server : String
  port : ℕ
  lun : ℕ
  name : String
  deriving DecidableEq, Repr

/-- The request for a URL, the commands of a script with their words, and the unit of a SAN URI. -/
structure Ipxe where
  fetch : String → Option Fetch
  commands : String → List (List String)
  target : String → Option SanTarget

/-- Characters without a meaning of their own in a command or a URI part. -/
def standsForItself (c : Char) : Bool := c.isAlphanum || c = '.' || c = '-' || c = ':'

structure Word (s : String) : Prop where
  ne : s ≠ ""
  chars : ∀ c ∈ s.toList, standsForItself c = true
  -- a line that starts with a colon is a label
  head : s.toList.head? ≠ some ':'

theorem word_iff {s : String} :
    Word s ↔ s ≠ "" ∧ s.toList.all standsForItself = true ∧ s.toList.head? ≠ some ':' :=
  ⟨fun h => ⟨h.ne, List.all_eq_true.2 h.chars, h.head⟩,
    fun h => ⟨h.1, List.all_eq_true.1 h.2.1, h.2.2⟩⟩

instance : DecidablePred Word := fun _ => decidable_of_iff' _ word_iff

structure UrlPath (s : String) : Prop where
  head : s.toList.head? = some '/'
  chars : ∀ c ∈ s.toList, c = '/' ∨ standsForItself c = true

def UrlQuery (s : String) : Prop := ∀ c ∈ s.toList, c = '=' ∨ standsForItself c = true

def portText : Option UInt16 → String
  | none => ""
  | some port => ":" ++ toString port.toNat

/-- A URL that names its server by the address. -/
def urlOf (ip : BitVec 32) (port : Option UInt16) (path query : String) : String :=
  "http://" ++ ipv4Text ip ++ portText port ++ path ++ "?" ++ query

def scriptOf (commands : List (List String)) : String :=
  "#!ipxe\n" ++ String.join (commands.map fun words => " ".intercalate words ++ "\n")

def sanUri (ip : BitVec 32) (name : String) : String := "iscsi:" ++ ipv4Text ip ++ "::::" ++ name

/-- What a boot relies on. -/
structure Ipxe.Documented (ipxe : Ipxe) : Prop where
  -- without a port, HTTP is on port 80
  fetch_url : ∀ ip port path query, UrlPath path → UrlQuery query →
    ipxe.fetch (urlOf ip port path query) =
      some ⟨ipv4Text ip, (port.map UInt16.toNat).getD 80, ⟨"GET", path, some query⟩⟩
  commands_script : ∀ commands, (∀ words ∈ commands, words ≠ [] ∧ ∀ word ∈ words, Word word) →
    ipxe.commands (scriptOf commands) = commands
  -- protocol, port and LUN have defaults
  target_uri : ∀ ip name, Word name → ipxe.target (sanUri ip name) = some ⟨ipv4Text ip, 3260, 0, name⟩

private theorem join_commands (magic set blank key sanboot scheme colons newline name server : String) :
    magic ++ (set ++ blank ++ key ++ blank) ++ name ++ (newline ++ (sanboot ++ blank ++ scheme)) ++
        server ++ colons ++ name ++ newline =
      magic ++ String.join [set ++ blank ++ key ++ blank ++ name ++ newline,
        sanboot ++ blank ++ (scheme ++ server ++ colons ++ name) ++ newline] := by
  simp only [String.join_cons, String.join_nil, String.append_assoc, String.append_empty]

/-- The generated script sets the initiator's name and boots from the target. -/
theorem generate_eq (name : String) (ip : BitVec 32) :
    BootScript.generate name (ipv4Text ip) =
      scriptOf [["set", "initiator-iqn", name], ["sanboot", sanUri ip name]] := by
  have hfront : "#!ipxe\nset initiator-iqn " = "#!ipxe\n" ++ ("set" ++ " " ++ "initiator-iqn" ++ " ") :=
    rfl
  have hmiddle : "\nsanboot iscsi:" = "\n" ++ ("sanboot" ++ " " ++ "iscsi:") := rfl
  exact (congrArg₂ (fun front middle => front ++ name ++ middle ++ ipv4Text ip ++ "::::" ++ name ++ "\n")
    hfront hmiddle).trans (join_commands _ _ _ _ _ _ _ _ _ _)

theorem mem_ipv4Text {ip : BitVec 32} {c : Char} (h : c ∈ (ipv4Text ip).toList) :
    c = '.' ∨ c.isDigit = true := by
  rw [ipv4Text, String.toList_intercalate] at h
  refine (mem_intercalate h).imp_right ?_
  rintro ⟨part, hpart, hc⟩
  rw [List.map_map] at hpart
  obtain ⟨shift, -, rfl⟩ := List.mem_map.1 hpart
  exact isDigit_of_mem_toString hc

theorem ne_of_mem_ipv4Text {ip : BitVec 32} {c mark : Char} (h : c ∈ (ipv4Text ip).toList)
    (hmark : mark ≠ '.' ∧ mark.isDigit = false) : c ≠ mark := by
  rintro rfl
  rcases mem_ipv4Text h with hdot | hdigit
  · exact hmark.1 hdot
  · exact absurd hdigit (by rw [hmark.2]; decide)

theorem standsForItself_of_isDigit {c : Char} (h : c.isDigit = true) : standsForItself c = true := by
  rw [standsForItself, Char.isAlphanum, h, Bool.or_true]
  rfl

theorem toNat_lt_of_standsForItself {c : Char} (h : standsForItself c = true) : c.toNat < 128 := by
  change (decide (c.val ≥ 65 ∧ c.val ≤ 90) || (c.val ≥ 97 && c.val ≤ 122) ||
    (c.val ≥ 48 && c.val ≤ 57) || decide (c = '.') || decide (c = '-') || decide (c = ':')) = true at h
  simp only [Bool.or_eq_true, Bool.and_eq_true, decide_eq_true_eq] at h
  rcases h with (((((⟨-, hle⟩ | ⟨-, hle⟩) | ⟨-, hle⟩) | rfl) | rfl) | rfl)
  · exact Nat.lt_of_le_of_lt hle (by decide)
  · exact Nat.lt_of_le_of_lt hle (by decide)
  · exact Nat.lt_of_le_of_lt hle (by decide)
  · decide
  · decide
  · decide

theorem not_blank_of_standsForItself {c : Char} (h : standsForItself c = true) :
    isWhitespace c = false := by
  have htable : ∀ n < 128, standsForItself (Char.ofNat n) = true →
      isWhitespace (Char.ofNat n) = false := by decide
  have hlt := toNat_lt_of_standsForItself h
  rw [← Char.ofNat_toNat c] at h ⊢
  exact htable _ hlt h

theorem Word.append {s t : String} (h : Word s) (ht : ∀ c ∈ t.toList, standsForItself c = true) :
    Word (s ++ t) := by
  have hne : s.toList ≠ [] := fun hnil => h.ne (String.toList_inj.1 hnil)
  refine ⟨fun hempty => ?_, fun c hc => ?_, ?_⟩
  · have hnil := congrArg String.toList hempty
    rw [String.toList_append] at hnil
    exact hne (List.append_eq_nil_iff.1 hnil).1
  · rw [String.toList_append] at hc
    exact (List.mem_append.1 hc).elim (h.chars c) (ht c)
  · rw [String.toList_append, List.head?_append_of_ne_nil _ hne]
    exact h.head

theorem word_sanUri {name : String} (h : Word name) (ip : BitVec 32) : Word (sanUri ip name) := by
  have hscheme : Word "iscsi:" := by decide
  have hserver : ∀ c ∈ (ipv4Text ip).toList, standsForItself c = true := by
    intro c hc
    rcases mem_ipv4Text hc with rfl | hdigit
    · decide
    · exact standsForItself_of_isDigit hdigit
  have hcolons := List.all_eq_true.1 (show "::::".toList.all standsForItself = true by decide)
  exact ((hscheme.append hserver).append hcolons).append h.chars

/-- The request for a URL that starts with `http://` and an address. -/
def plainFetch (url : String) : Option Fetch :=
  let rest := url.toList.drop 7
  let authority := rest.takeWhile (· ≠ '/')
  let target := rest.dropWhile (· ≠ '/')
  let server := String.ofList (authority.takeWhile (· ≠ ':'))
  let request : HttpRequest := ⟨"GET", String.ofList (target.takeWhile (· ≠ '?')),
    some (String.ofList ((target.dropWhile (· ≠ '?')).drop 1))⟩
  match authority.dropWhile (· ≠ ':') with
  | [] => some ⟨server, 80, request⟩
  | _ :: port => (parseUnsigned 16 (String.ofList port)).map fun port => ⟨server, port, request⟩

/-- The unit of a URI without a protocol, a port and a LUN. -/
def plainTarget (uri : String) : Option SanTarget :=
  match uri.toList.splitOn ':' with
  | _ :: server :: [] :: [] :: [] :: name =>
    some ⟨String.ofList server, 3260, 0, String.ofList ([':'].intercalate name)⟩
  | _ => none

def plainIpxe : Ipxe where
  fetch := plainFetch
  commands script := ((lines script.toList).drop 1).map fun line =>
    (splitWhitespace line).map String.ofList
  target := plainTarget

theorem takeWhile_upto {p : Char → Bool} {xs : List Char} {y : Char} (ys : List Char)
    (hxs : ∀ x ∈ xs, p x = true) (hy : p y = false) :
    (xs ++ y :: ys).takeWhile p = xs ∧ (xs ++ y :: ys).dropWhile p = y :: ys := by
  rw [List.takeWhile_append_of_pos hxs, List.dropWhile_append_of_pos hxs, List.takeWhile_cons,
    List.dropWhile_cons, hy]
  simp

theorem ne_slash_of_mem_authority (ip : BitVec 32) (port : Option UInt16) {c : Char}
    (hc : c ∈ (ipv4Text ip).toList ++ (portText port).toList) : c ≠ '/' := by
  rcases List.mem_append.1 hc with hc | hc
  · exact ne_of_mem_ipv4Text hc (by decide)
  · cases port with
    | none => cases hc
    | some port =>
      rw [portText, String.toList_append] at hc
      rintro rfl
      rcases List.mem_append.1 hc with hc | hc
      · revert hc
        decide
      · exact absurd (isDigit_of_mem_toString hc) (by decide)

theorem UrlPath.ne_question {path : String} (h : UrlPath path) {c : Char} (hc : c ∈ path.toList) :
    c ≠ '?' := by
  rintro rfl
  rcases h.chars _ hc with hslash | hplain
  · cases hslash
  · revert hplain
    decide

/-- What follows the scheme of a URL is the authority, the path and the query. -/
theorem drop_urlOf (ip : BitVec 32) (port : Option UInt16) (path query : String) :
    (urlOf ip port path query).toList.drop 7 =
      ((ipv4Text ip).toList ++ (portText port).toList) ++ (path.toList ++ '?' :: query.toList) := by
  have hscheme : "http://".toList.length = 7 := rfl
  have hmark : "?".toList = ['?'] := rfl
  simp only [urlOf, String.toList_append, List.append_assoc]
  rw [← hscheme, List.drop_left, hmark]
  rfl

theorem plainFetch_urlOf (ip : BitVec 32) (port : Option UInt16) {path query : String}
    (hpath : UrlPath path) :
    plainFetch (urlOf ip port path query) =
      some ⟨ipv4Text ip, (port.map UInt16.toNat).getD 80, ⟨"GET", path, some query⟩⟩ := by
  obtain ⟨rest, hrest⟩ : ∃ rest, path.toList = '/' :: rest := List.head?_eq_some_iff.1 hpath.head
  have hsplit : path.toList ++ '?' :: query.toList = '/' :: (rest ++ '?' :: query.toList) := by
    rw [hrest]
    rfl
  have hcolon : ∀ c ∈ (ipv4Text ip).toList, decide (c ≠ ':') = true :=
    fun c hc => decide_eq_true (ne_of_mem_ipv4Text hc (by decide))
  obtain ⟨hauthority, htarget⟩ := takeWhile_upto (y := '/') (rest ++ '?' :: query.toList)
    (fun c hc => decide_eq_true (ne_slash_of_mem_authority ip port hc)) (by decide)
  obtain ⟨hbefore, hafter⟩ := takeWhile_upto (y := '?') query.toList
    (fun c hc => decide_eq_true (hpath.ne_question hc)) (by decide)
  rw [plainFetch, drop_urlOf, hsplit]
  rw [hauthority, htarget, ← hsplit, hbefore, hafter, List.takeWhile_append_of_pos hcolon,
    List.dropWhile_append_of_pos hcolon]
  cases port with
  | none => simp [portText]
  | some port =>
    have hport : (portText (some port)).toList = ':' :: (toString port.toNat).toList := by
      rw [portText, String.toList_append]
      rfl
    have hstop : decide (':' ≠ ':') = false := by decide
    rw [hport, List.takeWhile_cons, List.dropWhile_cons, hstop]
    simp only [Bool.false_eq_true, if_false, List.append_nil, String.ofList_toList,
      List.drop_one, List.tail_cons, parseUnsigned_toString port.toNat_lt, Option.map_some,
      Option.getD_some]

theorem plainTarget_sanUri (ip : BitVec 32) (name : String) :
    plainTarget (sanUri ip name) = some ⟨ipv4Text ip, 3260, 0, name⟩ := by
  have huri : (sanUri ip name).toList =
      "iscsi".toList ++ ':' :: ((ipv4Text ip).toList ++ ':' :: ':' :: ':' :: ':' :: name.toList) := by
    have hscheme : "iscsi:".toList = "iscsi".toList ++ [':'] := rfl
    have hcolons : "::::".toList = [':', ':', ':', ':'] := rfl
    simp only [sanUri, String.toList_append, hscheme, hcolons, List.append_assoc, List.cons_append,
      List.nil_append]
  have hempty (cs : List Char) : (':' :: cs).splitOn ':' = [] :: cs.splitOn ':' :=
    List.splitOn_append_cons_self_of_not_mem List.not_mem_nil cs
  have hserver : ':' ∉ (ipv4Text ip).toList := fun hc => ne_of_mem_ipv4Text hc (by decide) rfl
  rw [plainTarget, huri, List.splitOn_append_cons_self_of_not_mem (by decide),
    List.splitOn_append_cons_self_of_not_mem hserver, hempty, hempty, hempty]
  simp only [List.intercalate_splitOn, String.ofList_toList]

/-- The words of a line are what stands between its blanks. -/
theorem splitWhitespace_intercalate {words : List String} (hne : words ≠ [])
    (h : ∀ word ∈ words, Word word) :
    (splitWhitespace (" ".intercalate words).toList).map String.ofList = words := by
  have hblank : " ".toList = [' '] := rfl
  rw [String.toList_intercalate, hblank]
  induction words with
  | nil => exact absurd rfl hne
  | cons word rest ih =>
    obtain ⟨hword, hchars, -⟩ := h word List.mem_cons_self
    have hlist : word.toList ≠ [] := fun hnil => hword (String.toList_inj.1 hnil)
    have hplain := fun c hc => not_blank_of_standsForItself (hchars c hc)
    rw [List.map_cons]
    by_cases hlast : rest = []
    · rw [hlast, List.map_nil, List.intercalate_singleton, splitWhitespace_word hlist hplain]
      simp
    · rw [List.intercalate_cons_of_ne_nil (by simpa using hlast), List.append_assoc,
        List.singleton_append, splitWhitespace_cons hlist hplain (by decide), List.map_cons,
        String.ofList_toList, ih hlast fun word hword => h word (List.mem_cons_of_mem _ hword)]

theorem toList_scriptOf (commands : List (List String)) : (scriptOf commands).toList =
    ("#!ipxe".toList :: commands.map fun words => (" ".intercalate words).toList).flatMap
      (· ++ ['\n']) := by
  have hbreak : "\n".toList = ['\n'] := rfl
  have hmagic : "#!ipxe\n" = "#!ipxe" ++ "\n" := rfl
  have hrest : (String.join (commands.map fun words => " ".intercalate words ++ "\n")).toList =
      (commands.map fun words => (" ".intercalate words).toList).flatMap (· ++ ['\n']) := by
    induction commands with
    | nil => rfl
    | cons words rest ih =>
      rw [List.map_cons, String.join_cons, String.toList_append, String.toList_append, hbreak, ih,
        List.map_cons, List.flatMap_cons]
  rw [scriptOf, String.toList_append, hrest, List.flatMap_cons, hmagic, String.toList_append, hbreak]

theorem plainIpxe_commands {commands : List (List String)}
    (h : ∀ words ∈ commands, words ≠ [] ∧ ∀ word ∈ words, Word word) :
    plainIpxe.commands (scriptOf commands) = commands := by
  have hlines : lines (scriptOf commands).toList =
      "#!ipxe".toList :: commands.map fun words => (" ".intercalate words).toList := by
    rw [toList_scriptOf, lines_flatMap]
    have hmagic := not_blank_of_any (show "#!ipxe".toList.any isWhitespace = false by decide)
    have hblank : " ".toList = [' '] := rfl
    intro line hline c hc
    rcases List.mem_cons.1 hline with rfl | hline
    · exact no_break_of_not_blank (hmagic c hc)
    · obtain ⟨words, hwords, rfl⟩ := List.mem_map.1 hline
      rw [String.toList_intercalate, hblank] at hc
      rcases mem_intercalate hc with rfl | ⟨part, hpart, hc⟩
      · decide
      · obtain ⟨word, hword, rfl⟩ := List.mem_map.1 hpart
        have hchar := ((h words hwords).2 word hword).chars c hc
        exact no_break_of_not_blank (not_blank_of_standsForItself hchar)
  have hcommands : plainIpxe.commands (scriptOf commands) =
      ((lines (scriptOf commands).toList).drop 1).map
        fun line => (splitWhitespace line).map String.ofList := rfl
  rw [hcommands, hlines, List.drop_one, List.tail_cons, List.map_map]
  refine (List.map_congr_left fun words hwords => ?_).trans (List.map_id commands)
  exact splitWhitespace_intercalate (h words hwords).1 (h words hwords).2

theorem plainIpxe_documented : plainIpxe.Documented := by
  have hfetch : plainIpxe.fetch = plainFetch := rfl
  have htarget : plainIpxe.target = plainTarget := rfl
  refine ⟨fun ip port path query hpath _ => ?_, fun _ => plainIpxe_commands, fun ip name _ => ?_⟩
  · rw [hfetch]
    exact plainFetch_urlOf ip port hpath
  · rw [htarget]
    exact plainTarget_sanUri ip name

end XBoot.Boot
