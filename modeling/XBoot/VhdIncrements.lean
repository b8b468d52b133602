import XBoot.BigEndian
import XBoot.KeyedSorts
import XBoot.Numerals
import Mathlib.Data.List.Basic

/-!
# Finding increment files

The increments of an image lie beside it as `stem.001.ext`, `stem.002.ext` and so on. A
directory is read in any order, and the files found are sorted by their numbers alone.
The lower-casing of names follows the Unicode tables and is a parameter.
-/

namespace XBoot.Vhd

open BigEndian Utf8 Numerals KeyedSorts

abbrev OsName := List UInt8

/-- `OsStr::to_str`: the text of a name that is valid UTF-8. -/
def toStr (name : OsName) : Option String :=
  if encode (fromUtf8Lossy name) = name then some (fromUtf8Lossy name) else none

/-- What `Path::parent` and `Path::file_name` give for an image's path. -/
structure BasePath where
  parent : Option OsName
  fileName : Option OsName

/-- `Path::file_stem` and `Path::extension` of a file name: cut at the last dot, unless it is
the first byte. -/
def splitAtDot (name : OsName) : OsName × Option OsName :=
  match name.reverse.span (· ≠ 46) with
  | (_, []) => (name, none)
  | (ext, _ :: stem) => if stem = [] then (name, none) else (stem.reverse, some ext.reverse)

/-- The directory, stem and extension, when there are all three. -/
def BasePath.parts (base : BasePath) : Option (OsName × String × String) := do
  let dir ← base.parent
  let name ← base.fileName
  let stem ← toStr (splitAtDot name).1
  let ext ← (splitAtDot name).2
  let ext ← toStr ext
  return (dir, stem, ext)

structure EntryPath where
  dir : OsName
  name : OsName
  deriving DecidableEq, Repr

/-- The number in a lower-cased name of the form `stem.digits.ext`. -/
def incrementNumber (stemLc extLc nameLc : List Char) : Option ℕ := do
  let rest ← stemLc.isPrefixOf? nameLc
  let rest ← ['.'].isPrefixOf? rest
  let num ← extLc.isSuffixOf? rest
  let num ← ['.'].isSuffixOf? num
  if num = [] ∨ ¬ num.all Char.isDigit then none else parseUnsigned 32 (String.ofList num)

/-- The number of an entry's name; a name that is not UTF-8 has none. -/
def entryNumber (toLowercase : String → String) (stem ext : String) (name : OsName) : Option ℕ := do
  let s ← toStr name
  incrementNumber (toLowercase stem).toList (toLowercase ext).toList (toLowercase s).toList

/-- The directory that is read; an empty path is the current one. -/
def dirToRead (dir : OsName) : OsName := if dir = [] then ascii "." else dir

/-- `find_increments`; `readDir` gives the entries of a directory in some order, with `none` for
one that cannot be read. -/
def findIncrements (toLowercase : String → String) (base : BasePath)
    (readDir : OsName → Option (List (Option OsName))) : List EntryPath :=
  match base.parts with
  | none => []
  | some (dir, stem, ext) => match readDir (dirToRead dir) with
    | none => []
    | some entries =>
      let found := (entries.filterMap id).filterMap fun name =>
        (entryNumber toLowercase stem ext name).map fun n => (n, EntryPath.mk (dirToRead dir) name)
      (sortByKey Prod.fst found).map Prod.snd

/-- The lower-cased name is the lower-cased stem, a number of 32 bits and the lower-cased
extension. -/
def LayerName (toLowercase : String → String) (base : BasePath) (name : OsName) (n : ℕ) : Prop :=
  ∃ dir stem ext s digits, base.parts = some (dir, stem, ext) ∧ encode s = name ∧
    (toLowercase s).toList =
      (toLowercase stem).toList ++ '.' :: (digits ++ '.' :: (toLowercase ext).toList) ∧
    digits ≠ [] ∧ (∀ c ∈ digits, c.isDigit = true) ∧ parseUnsigned 32 (String.ofList digits) = some n

theorem toStr_eq_some {name : OsName} {s : String} : toStr name = some s ↔ encode s = name := by
  rw [toStr]
  constructor
  · intro h
    split at h
    · rename_i hvalid
      cases h
      exact hvalid
    · cases h
  · rintro rfl
    rw [fromUtf8Lossy_encode, if_pos rfl]

theorem incrementNumber_eq_some {stemLc extLc nameLc : List Char} {n : ℕ} :
    incrementNumber stemLc extLc nameLc = some n ↔
      ∃ digits, nameLc = stemLc ++ '.' :: (digits ++ '.' :: extLc) ∧ digits ≠ [] ∧
        (∀ c ∈ digits, c.isDigit = true) ∧ parseUnsigned 32 (String.ofList digits) = some n := by
  rw [incrementNumber]
  simp only [Option.bind_eq_bind, Option.bind_eq_some_iff, List.isPrefixOf?_eq_some_iff_append_eq,
    List.isSuffixOf?_eq_some_iff_append_eq]
  constructor
  · rintro ⟨_, rfl, _, rfl, _, rfl, digits, rfl, hdigits⟩
    split at hdigits
    · cases hdigits
    · rename_i hgood
      rw [not_or, not_not] at hgood
      exact ⟨digits, by simp, hgood.1, List.all_eq_true.1 hgood.2, hdigits⟩
  · rintro ⟨digits, rfl, hne, hall, hn⟩
    refine ⟨'.' :: (digits ++ '.' :: extLc), rfl, digits ++ '.' :: extLc, rfl, digits ++ ['.'], by simp,
      digits, rfl, ?_⟩
    rw [if_neg, hn]
    rw [not_or, not_not]
    exact ⟨hne, List.all_eq_true.2 hall⟩

/-- The entries that can be read are these names, in some order. -/
def Enumerates (names : List OsName) (listing : List (Option OsName)) : Prop :=
  (listing.filterMap id).Perm names

/-- Whatever the order of the entries, the same list is found: all layers, each once and ordered
by their numbers. -/
structure FindsLayers (toLowercase : String → String) (base : BasePath) (names : List OsName) :
    Prop where
  same : ∀ listing listing', Enumerates names listing → Enumerates names listing' →
    findIncrements toLowercase base (fun _ => some listing) =
      findIncrements toLowercase base fun _ => some listing'
  nodup : ∀ listing, Enumerates names listing →
    (findIncrements toLowercase base fun _ => some listing).Nodup
  mem_iff : ∀ listing, Enumerates names listing → ∀ path,
    path ∈ findIncrements toLowercase base (fun _ => some listing) ↔
      ∃ dir name n, base.parent = some dir ∧ name ∈ names ∧
        LayerName toLowercase base name n ∧ path = ⟨dirToRead dir, name⟩
  ordered : ∀ listing, Enumerates names listing →
    (findIncrements toLowercase base fun _ => some listing).Pairwise fun p q =>
      ∀ n m, LayerName toLowercase base p.name n → LayerName toLowercase base q.name m → n ≤ m

/-- No two layers have the same number. -/
def DistinctNumbers (toLowercase : String → String) (base : BasePath) (names : List OsName) : Prop :=
  ∀ name ∈ names, ∀ name' ∈ names, ∀ n,
    LayerName toLowercase base name n → LayerName toLowercase base name' n → name = name'

/-- The entries with a number, in the order in which they were read. -/
def foundIn (number : OsName → Option ℕ) (dir : OsName) (names : List OsName) : List (ℕ × EntryPath) :=
  names.filterMap fun name => (number name).map fun n => (n, EntryPath.mk dir name)

section Found

variable {number : OsName → Option ℕ} {dir : OsName} {names names' : List OsName}

theorem mem_foundIn {p : ℕ × EntryPath} :
    p ∈ foundIn number dir names ↔ ∃ name ∈ names, number name = some p.1 ∧ p.2 = ⟨dir, name⟩ := by
  rw [foundIn, List.mem_filterMap]
  constructor
  · rintro ⟨name, hname, hp⟩
    obtain ⟨n, hn, rfl⟩ := Option.map_eq_some_iff.1 hp
    exact ⟨name, hname, hn, rfl⟩
  · rintro ⟨name, hname, hn, hpath⟩
    refine ⟨name, hname, ?_⟩
    rw [hn, Option.map_some, ← hpath]

theorem foundIn_cons {name : OsName} {n : ℕ} (h : number name = some n) :
    foundIn number dir (name :: names) = (n, ⟨dir, name⟩) :: foundIn number dir names := by
  rw [foundIn, List.filterMap_cons_some (by rw [h, Option.map_some])]
  rfl

theorem nodup_foundIn (h : names.Nodup) : ((foundIn number dir names).map Prod.snd).Nodup := by
  rw [foundIn, List.map_filterMap]
  refine h.filterMap fun name name' path hpath hpath' => ?_
  simp only [Option.mem_def, Option.map_map, Option.map_eq_some_iff, Function.comp_apply] at hpath hpath'
  obtain ⟨n, -, rfl⟩ := hpath
  obtain ⟨n', -, hsame⟩ := hpath'
  exact (EntryPath.mk.inj hsame).2.symm

theorem sorted_foundIn_congr (h : names.Perm names')
    (hnumber : ∀ name ∈ names, ∀ name' ∈ names, ∀ n, number name = some n → number name' = some n →
      name = name') :
    sortByKey Prod.fst (foundIn number dir names) = sortByKey Prod.fst (foundIn number dir names') := by
  apply sortByKey_congr (h.filterMap _)
  intro p hp q hq hkey
  obtain ⟨name, hname, hn, hpath⟩ := mem_foundIn.1 hp
  obtain ⟨name', hname', hn', hpath'⟩ := mem_foundIn.1 hq
  have hsame := hnumber name hname name' hname' p.1 hn (hkey ▸ hn')
  exact Prod.ext hkey (by rw [hpath, hpath', hsame])

end Found

section Parts

variable {toLowercase : String → String} {base : BasePath} {names : List OsName}
  {listing : List (Option OsName)}

theorem no_layers (h : base.parts = none) (name : OsName) (n : ℕ) :
    ¬ LayerName toLowercase base name n := by
  rintro ⟨dir, stem, ext, s, digits, hparts, -⟩
  rw [h] at hparts
  cases hparts

variable {dir : OsName} {stem ext : String} (hparts : base.parts = some (dir, stem, ext))
include hparts

theorem parent_eq : base.parent = some dir := by
  rw [BasePath.parts] at hparts
  simp only [Option.bind_eq_bind, Option.bind_eq_some_iff] at hparts
  obtain ⟨dir', hdir, _, -, _, -, _, -, _, -, hsame⟩ := hparts
  cases hsame
  exact hdir

theorem layerName_iff {name : OsName} {n : ℕ} :
    LayerName toLowercase base name n ↔ entryNumber toLowercase stem ext name = some n := by
  rw [entryNumber]
  simp only [Option.bind_eq_bind, Option.bind_eq_some_iff, toStr_eq_some, incrementNumber_eq_some]
  constructor
  · rintro ⟨_, _, _, s, digits, hparts', hname, hform⟩
    rw [hparts] at hparts'
    cases hparts'
    exact ⟨s, hname, digits, hform⟩
  · rintro ⟨s, hname, digits, hform⟩
    exact ⟨dir, stem, ext, s, digits, hparts, hname, hform⟩

theorem findIncrements_eq : findIncrements toLowercase base (fun _ => some listing) =
    (sortByKey Prod.fst (foundIn (entryNumber toLowercase stem ext) (dirToRead dir)
      (listing.filterMap id))).map Prod.snd := by
  rw [findIncrements, hparts]
  rfl

theorem nodup_findIncrements (hnodup : names.Nodup) (h : Enumerates names listing) :
    (findIncrements toLowercase base fun _ => some listing).Nodup := by
  rw [findIncrements_eq hparts]
  exact ((sortByKey_perm _ _).map _).nodup_iff.2 (nodup_foundIn (h.nodup_iff.2 hnodup))

theorem mem_findIncrements (h : Enumerates names listing) {path : EntryPath} :
    path ∈ findIncrements toLowercase base (fun _ => some listing) ↔
      ∃ dir name n, base.parent = some dir ∧ name ∈ names ∧ LayerName toLowercase base name n ∧
        path = ⟨dirToRead dir, name⟩ := by
  rw [findIncrements_eq hparts, List.mem_map]
  constructor
  · rintro ⟨p, hp, rfl⟩
    obtain ⟨name, hname, hn, hpath⟩ := mem_foundIn.1 ((sortByKey_perm _ _).mem_iff.1 hp)
    exact ⟨dir, name, p.1, parent_eq hparts, h.mem_iff.1 hname, (layerName_iff hparts).2 hn, hpath⟩
  · rintro ⟨dir', name, n, hdir, hname, hlayer, rfl⟩
    rw [parent_eq hparts] at hdir
    cases hdir
    refine ⟨(n, ⟨dirToRead dir, name⟩), (sortByKey_perm _ _).mem_iff.2 (mem_foundIn.2 ?_), rfl⟩
    exact ⟨name, h.mem_iff.2 hname, (layerName_iff hparts).1 hlayer, rfl⟩

theorem findIncrements_ordered :
    (findIncrements toLowercase base fun _ => some listing).Pairwise fun p q =>
      ∀ n m, LayerName toLowercase base p.name n → LayerName toLowercase base q.name m → n ≤ m := by
  rw [findIncrements_eq hparts, List.pairwise_map]
  refine (sortByKey_sorted _ _).imp_of_mem fun {p q} hp hq hle n m hn hm => ?_
  have hnumber {p : ℕ × EntryPath} {n : ℕ} (hp : p ∈ sortByKey Prod.fst
      (foundIn (entryNumber toLowercase stem ext) (dirToRead dir) (listing.filterMap id)))
      (hn : LayerName toLowercase base p.2.name n) : p.1 = n := by
    obtain ⟨name, -, hname, hpath⟩ := mem_foundIn.1 ((sortByKey_perm _ _).mem_iff.1 hp)
    rw [layerName_iff hparts, hpath, hname] at hn
    exact Option.some.inj hn
  rw [← hnumber hp hn, ← hnumber hq hm]
  exact hle

theorem findIncrements_congr {listing' : List (Option OsName)}
    (hdistinct : DistinctNumbers toLowercase base names) (h : Enumerates names listing)
    (h' : Enumerates names listing') :
    findIncrements toLowercase base (fun _ => some listing) =
      findIncrements toLowercase base fun _ => some listing' := by
  rw [findIncrements_eq hparts, findIncrements_eq hparts]
  refine congrArg _ (sorted_foundIn_congr (h.trans h'.symm) fun name hname name' hname' n hn hn' => ?_)
  exact hdistinct name (h.mem_iff.1 hname) name' (h.mem_iff.1 hname') n
    ((layerName_iff hparts).2 hn) ((layerName_iff hparts).2 hn')

theorem keeps_read_order {name name' : OsName} {n : ℕ} (rest : List OsName)
    (hn : LayerName toLowercase base name n) (hn' : LayerName toLowercase base name' n) :
    [EntryPath.mk (dirToRead dir) name, ⟨dirToRead dir, name'⟩].Sublist
      (findIncrements toLowercase base fun _ => some ((name :: name' :: rest).map some)) := by
  have hread : ((name :: name' :: rest).map some).filterMap id = name :: name' :: rest := by simp
  rw [findIncrements_eq hparts, hread, foundIn_cons ((layerName_iff hparts).1 hn),
    foundIn_cons ((layerName_iff hparts).1 hn')]
  have hpair : [(n, EntryPath.mk (dirToRead dir) name), (n, ⟨dirToRead dir, name'⟩)].Sublist
      (sortByKey Prod.fst ((n, EntryPath.mk (dirToRead dir) name) :: (n, ⟨dirToRead dir, name'⟩) ::
        foundIn (entryNumber toLowercase stem ext) (dirToRead dir) rest)) :=
    sortByKey_pair (Nat.le_refl n) (.cons_cons _ (.cons_cons _ (List.nil_sublist _)))
  exact hpair.map Prod.snd

end Parts

/-- A name has one number. -/
theorem number_unique {toLowercase : String → String} {base : BasePath} {name : OsName} {n m : ℕ}
    (hn : LayerName toLowercase base name n) (hm : LayerName toLowercase base name m) : n = m := by
  cases hparts : base.parts with
  | none => exact absurd hn (no_layers hparts name n)
  | some parts =>
    rw [layerName_iff hparts] at hn hm
    exact Option.some.inj (hn.symm.trans hm)

theorem distinct_of_two {toLowercase : String → String} {base : BasePath} {name name' : OsName}
    {n n' : ℕ} (hn : LayerName toLowercase base name n) (hn' : LayerName toLowercase base name' n')
    (hne : n ≠ n') : DistinctNumbers toLowercase base [name, name'] := by
  intro a ha a' ha' m hm hm'
  rw [List.mem_cons, List.mem_singleton] at ha ha'
  rcases ha with rfl | rfl <;> rcases ha' with rfl | rfl
  · rfl
  · exact absurd ((number_unique hn hm).trans (number_unique hm' hn')) hne
  · exact absurd ((number_unique hn hm').trans (number_unique hm hn')) hne
  · rfl

/-- Two layers with the same number are found in the order in which they are read. -/
theorem order_matters {toLowercase : String → String} {base : BasePath} {names : List OsName}
    {name name' : OsName} {n : ℕ} (hname : name ∈ names) (hname' : name' ∈ names)
    (hne : name ≠ name') (hn : LayerName toLowercase base name n)
    (hn' : LayerName toLowercase base name' n) : ¬ FindsLayers toLowercase base names := by
  intro hfinds
  cases hparts : base.parts with
  | none => exact no_layers hparts name n hn
  | some parts =>
    obtain ⟨dir, stem, ext⟩ := parts
    have hrest := List.perm_cons_erase hname
    have hrest' := List.perm_cons_erase ((List.mem_erase_of_ne (Ne.symm hne)).2 hname')
    have hperm : names.Perm (name :: name' :: (names.erase name).erase name') :=
      hrest.trans (hrest'.cons name)
    have henum : Enumerates names ((name :: name' :: (names.erase name).erase name').map some) := by
      rw [Enumerates]
      simpa using hperm.symm
    have henum' : Enumerates names ((name' :: name :: (names.erase name).erase name').map some) := by
      rw [Enumerates]
      simpa using ((List.Perm.swap name name' _).trans hperm.symm)
    have hforward := keeps_read_order hparts ((names.erase name).erase name') hn hn'
    have hbackward := keeps_read_order hparts ((names.erase name).erase name') hn' hn
    rw [← hfinds.same _ _ henum henum'] at hbackward
    exact not_both_orders (hfinds.nodup _ henum) hforward hbackward

/-- The layers found do not depend on the order of the directory exactly when their numbers are
distinct. -/
theorem find_increments_iff (toLowercase : String → String) (base : BasePath) {names : List OsName}
    (hnodup : names.Nodup) :
    FindsLayers toLowercase base names ↔ DistinctNumbers toLowercase base names := by
  constructor
  · intro h name hname name' hname' n hn hn'
    by_contra hne
    exact order_matters hname hname' hne hn hn' h
  · intro h
    cases hparts : base.parts with
    | none =>
      have hempty (listing : List (Option OsName)) :
          findIncrements toLowercase base (fun _ => some listing) = [] := by
        rw [findIncrements, hparts]
      refine ⟨fun _ _ _ _ => by rw [hempty, hempty], fun _ _ => ?_, fun _ _ path => ?_, fun _ _ => ?_⟩
      · rw [hempty]
        exact List.nodup_nil
      · rw [hempty]
        refine iff_of_false (by simp) ?_
        rintro ⟨-, name, n, -, -, hlayer, -⟩
        exact no_layers hparts name n hlayer
      · rw [hempty]
        exact List.Pairwise.nil
    | some parts =>
      exact ⟨fun _ _ => findIncrements_congr hparts h, fun _ => nodup_findIncrements hparts hnodup,
        fun _ henum _ => mem_findIncrements hparts henum, fun _ _ => findIncrements_ordered hparts⟩

def lowerAscii (s : String) : String := String.ofList (s.toList.map Char.toLower)

def imageM : BasePath := ⟨some (ascii "d"), some (ascii "m.vhd")⟩

theorem layer_of_imageM {name : OsName} (s : String) (digits : List Char) {n : ℕ}
    (hname : encode s = name) (hform : (lowerAscii s).toList = "m.".toList ++ (digits ++ ".vhd".toList))
    (hne : digits ≠ []) (hdigits : ∀ c ∈ digits, c.isDigit = true)
    (hn : parseUnsigned 32 (String.ofList digits) = some n) : LayerName lowerAscii imageM name n :=
  ⟨ascii "d", "m", "vhd", s, digits, by decide, hname, hform, hne, hdigits, hn⟩

/-- `m.1.vhd` and `m.01.vhd` are both the first layer, and are found as they were read. -/
theorem padded_numbers_collide :
    ¬ FindsLayers lowerAscii imageM [ascii "m.1.vhd", ascii "m.01.vhd"] := by
  have hone : LayerName lowerAscii imageM (ascii "m.1.vhd") 1 :=
    layer_of_imageM "m.1.vhd" ['1'] (by decide) (by decide) (by decide) (by simp) (by decide)
  have hpadded : LayerName lowerAscii imageM (ascii "m.01.vhd") 1 :=
    layer_of_imageM "m.01.vhd" ['0', '1'] (by decide) (by decide) (by decide) (by simp) (by decide)
  exact order_matters (by simp) (by simp) (by decide) hone hpadded

theorem two_layers_found : FindsLayers lowerAscii imageM [ascii "m.1.vhd", ascii "m.02.vhd"] := by
  have hone : LayerName lowerAscii imageM (ascii "m.1.vhd") 1 :=
    layer_of_imageM "m.1.vhd" ['1'] (by decide) (by decide) (by decide) (by simp) (by decide)
  have htwo : LayerName lowerAscii imageM (ascii "m.02.vhd") 2 :=
    layer_of_imageM "m.02.vhd" ['0', '2'] (by decide) (by decide) (by decide) (by simp) (by decide)
  exact (find_increments_iff lowerAscii imageM (by decide)).2 (distinct_of_two hone htwo (by decide))

end XBoot.Vhd
