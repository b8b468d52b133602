import XBoot.OpenedImages

/-!
# Images with numbered increments

An image that is opened with the increments beside it reads as the increment with the greatest
number that serves a sector. The order in which the directory lists them has no part in it.
-/

namespace XBoot.Vhd

open Storage NewestLayer

theorem newest_filterMap {α β : Type} (P : β → Bool) (f : α → Option β) (xs : List α) :
    newest P (xs.filterMap f) = (newest (fun a => (f a).any P) xs).bind f := by
  rw [newest_eq_find?, newest_eq_find?, ← List.filterMap_reverse, List.find?_filterMap]

def layerAt (entries : Entries) (path : EntryPath) : Option DynamicVhd :=
  match openFile entries path.path with
  | .error _ => none
  | .ok file => match DynamicVhd.open file.bytes with
    | .error _ => none
    | .ok layer => some layer

theorem openIncrements_ok {entries : Entries} {virtualSize : ℕ} {paths : List EntryPath}
    (h : ∀ path ∈ paths, ∃ layer, layerAt entries path = some layer ∧ layer.virtualSize = virtualSize) :
    openIncrements entries virtualSize paths = .ok (paths.filterMap (layerAt entries)) := by
  induction paths with
  | nil => rfl
  | cons path rest ih =>
    have hrest := ih fun p hp => h p (List.mem_cons_of_mem _ hp)
    obtain ⟨layer, hlayer, hsize⟩ := h path List.mem_cons_self
    rw [List.filterMap_cons_some hlayer]
    rw [layerAt] at hlayer
    split at hlayer
    · cases hlayer
    · rename_i file hfile
      split at hlayer
      · cases hlayer
      · rename_i opened hopened
        cases hlayer
        rw [openIncrements, hfile]
        dsimp only
        rw [hopened]
        dsimp only
        rw [if_neg (not_not.2 hsize), hrest]

end XBoot.Vhd

namespace XBoot.Storage

open ListSlices BigEndian PointReads NewestLayer Vhd VhdxFile

/-- The increment with number `n` beside an image, of the files with these names. -/
def Numbered (host : Host) (base : BasePath) (names : List OsName) (n : ℕ) (layer : DynamicVhd) :
    Prop :=
  ∃ dir, base.parent = some dir ∧ ∃ name ∈ names, LayerName host.toLowercase base name n ∧
    layerAt host.entries ⟨dirToRead dir, name⟩ = some layer

/-- The increment with the greatest number of those with a property. -/
def Greatest (numbered : ℕ → DynamicVhd → Prop) (P : DynamicVhd → Bool) (layer : DynamicVhd) : Prop :=
  ∃ n, numbered n layer ∧ P layer = true ∧ ∀ m other, numbered m other → P other = true → m ≤ n

def hasBlock (sector : ℕ) (layer : DynamicVhd) : Bool := (layer.place sector).isSome

/-- The sector's block is stored and its bit is set, or bitmaps are ignored. -/
def hasSector (ignoreBitmap : Bool) (sector : ℕ) (layer : DynamicVhd) : Bool :=
  hasBlock sector layer && (ignoreBitmap || layer.bitSet sector)

/-- Which increment serves a sector, by the numbers; with none it is the base. -/
def ServedBy (numbered : ℕ → DynamicVhd → Prop) (ignoreBitmap : Bool) (sector : ℕ) :
    Option DynamicVhd → Prop
  | some layer => Greatest numbered (hasSector ignoreBitmap sector) layer ∨
      (∀ n other, numbered n other → hasSector ignoreBitmap sector other = false) ∧
        Greatest numbered (hasBlock sector) layer
  | none => ∀ n other, numbered n other → hasBlock sector other = false

/-- A VHD image that opens as `base`, with the files in its directory; those that are increments
have different numbers and open as layers of the size of the base. -/
structure ChainBeside (host : Host) (image : ImagePath) (names : List OsName) (base : BackingStore) :
    Prop where
  opens : ∃ file, host.entries image.path = .file file ∧ slice file.bytes 0 8 ≠ ascii "vhdxfile" ∧
    openVhd host.ignoreBitmap file.bytes = .ok base
  chained : host.noChain = false
  distinct : DistinctNumbers host.toLowercase image.base names
  layers {dir name : OsName} {n : ℕ} : image.base.parent = some dir → name ∈ names →
    LayerName host.toLowercase image.base name n →
    ∃ layer, layerAt host.entries ⟨dirToRead dir, name⟩ = some layer ∧
      layer.virtualSize = base.sizeBytes ∧ layer.CoversDisk

/-- An image that opens as a VHD ends with a footer. -/
theorem cookie_of_openVhd {ignoreBitmap : Bool} {file : List UInt8} {store : BackingStore}
    (h : openVhd ignoreBitmap file = .ok store) :
    512 ≤ file.length ∧ slice file (file.length - 512) 8 = ascii "conectix" := by
  rw [openVhd] at h
  split at h
  · cases h
  · rename_i footer hfooter
    rw [trailingFooter] at hfooter
    split at hfooter
    · cases hfooter
    · split at hfooter
      · cases hfooter
      · rename_i bytes hbytes
        rw [VhdFooter.parse] at hfooter
        split at hfooter
        · cases hfooter
        · dsimp only at hfooter
          split at hfooter
          · cases hfooter
          · rename_i hcookie
            have htake : bytes.take 512 = slice bytes 0 512 := by rw [slice, List.drop_zero]
            rw [not_not, htake, (readExactAt_ok hbytes).1, slice_slice _ _ _ _ _ (by omega),
              slice_slice _ _ _ _ _ (by omega), Nat.add_zero] at hcookie
            exact ⟨by omega, hcookie⟩

variable {host : Host} {image : ImagePath} {names : List OsName} {base : BackingStore}
  {listing : List (Option OsName)}

theorem findIncrements_listing {toLowercase : String → String} {base : BasePath}
    {readDir : OsName → Option (List (Option OsName))}
    (h : ∀ dir, base.parent = some dir → readDir (dirToRead dir) = some listing) :
    findIncrements toLowercase base readDir = findIncrements toLowercase base fun _ => some listing := by
  rw [findIncrements, findIncrements]
  cases hparts : base.parts with
  | none => rfl
  | some parts =>
    obtain ⟨dir, stem, ext⟩ := parts
    dsimp only
    rw [h dir (parent_eq hparts)]

theorem openBacking_chain (h : ChainBeside host image names base)
    (hlisting : ∀ dir, image.base.parent = some dir → host.readDir (dirToRead dir) = some listing) :
    openBacking host image = openLayered host base
      (findIncrements host.toLowercase image.base fun _ => some listing) := by
  obtain ⟨file, hfile, hvhdx, hbase⟩ := h.opens
  rw [openBacking, openFile, hfile]
  dsimp only
  rw [if_neg fun hid => hvhdx hid.2, if_pos (cookie_of_openVhd hbase), openChain, hbase]
  dsimp only
  rw [h.chained, if_neg Bool.false_ne_true, Host.increments, findIncrements_listing hlisting]

section Found

variable {paths : List EntryPath}
  (hpaths : paths = findIncrements host.toLowercase image.base fun _ => some listing)
include hpaths

theorem found_ordered : paths.Pairwise fun p q => ∀ n m,
    LayerName host.toLowercase image.base p.name n → LayerName host.toLowercase image.base q.name m →
      n ≤ m := by
  rw [hpaths]
  cases hparts : image.base.parts with
  | none =>
    rw [findIncrements, hparts]
    exact List.Pairwise.nil
  | some parts => exact findIncrements_ordered hparts

variable (henum : Enumerates names listing)
include henum

theorem mem_found {path : EntryPath} : path ∈ paths ↔ ∃ dir name n, image.base.parent = some dir ∧
    name ∈ names ∧ LayerName host.toLowercase image.base name n ∧ path = ⟨dirToRead dir, name⟩ := by
  rw [hpaths]
  cases hparts : image.base.parts with
  | none =>
    rw [findIncrements, hparts]
    refine iff_of_false (by simp) ?_
    rintro ⟨-, name, n, -, -, hlayer, -⟩
    exact no_layers hparts name n hlayer
  | some parts => exact mem_findIncrements hparts henum

theorem found_of_numbered {n : ℕ} {layer : DynamicVhd}
    (hlayer : Numbered host image.base names n layer) :
    ∃ path ∈ paths, LayerName host.toLowercase image.base path.name n ∧
      layerAt host.entries path = some layer := by
  obtain ⟨dir, hdir, name, hname, hnumber, hat⟩ := hlayer
  exact ⟨_, (mem_found hpaths henum).2 ⟨dir, name, n, hdir, hname, hnumber, rfl⟩, hnumber, hat⟩

theorem none_of_newest {P : DynamicVhd → Bool}
    (hnewest : newest P (paths.filterMap (layerAt host.entries)) = none) :
    ∀ n other, Numbered host image.base names n other → P other = false := by
  intro n other hother
  obtain ⟨path, hpath, -, hat⟩ := found_of_numbered hpaths henum hother
  exact newest_eq_none.1 hnewest other (List.mem_filterMap.2 ⟨path, hpath, hat⟩)

variable (h : ChainBeside host image names base)
include h

theorem found_opens {path : EntryPath} (hpath : path ∈ paths) :
    ∃ n layer, LayerName host.toLowercase image.base path.name n ∧
      layerAt host.entries path = some layer ∧ Numbered host image.base names n layer ∧
      layer.virtualSize = base.sizeBytes ∧ layer.CoversDisk := by
  obtain ⟨dir, name, n, hdir, hname, hlayer, rfl⟩ := (mem_found hpaths henum).1 hpath
  obtain ⟨layer, hat, hsize, hcover⟩ := h.layers hdir hname hlayer
  exact ⟨n, layer, hlayer, hat, ⟨dir, hdir, name, hname, hlayer, hat⟩, hsize, hcover⟩

/-- The newest layer found with a property has the greatest number. -/
theorem greatest_of_newest {P : DynamicVhd → Bool} {layer : DynamicVhd}
    (hnewest : newest P (paths.filterMap (layerAt host.entries)) = some layer) :
    Greatest (Numbered host image.base names) P layer := by
  rw [newest_filterMap, Option.bind_eq_some_iff] at hnewest
  obtain ⟨path, hpath, hat⟩ := hnewest
  obtain ⟨hP, older, newer, hsplit, hnone⟩ := newest_eq_some.1 hpath
  rw [hat, Option.any_some] at hP
  have hmem : path ∈ paths := by simp [hsplit]
  obtain ⟨n, found, hn, hfound, hnumbered, -⟩ := found_opens hpaths henum h hmem
  obtain rfl : layer = found := Option.some.inj (hat.symm.trans hfound)
  refine ⟨n, hnumbered, hP, fun m other hother hPother => ?_⟩
  obtain ⟨q, hq, hm, hqat⟩ := found_of_numbered hpaths henum hother
  have hordered := found_ordered hpaths
  rw [hsplit] at hordered hq
  rcases List.mem_append.1 hq with hold | hnew
  · exact (List.pairwise_append.1 hordered).2.2 q hold path List.mem_cons_self m n hm hn
  · rcases List.mem_cons.1 hnew with rfl | hlater
    · exact Nat.le_of_eq (number_unique hm hn)
    · have hno := hnone q hlater
      rw [hqat, Option.any_some, hPother] at hno
      cases hno

/-- The layer that the reader takes is the one that the numbers say. -/
theorem servedBy_servingLayer (sector : ℕ) :
    ServedBy (Numbered host image.base names) host.ignoreBitmap sector
      (servingLayer host.ignoreBitmap (paths.filterMap (layerAt host.entries)) sector) := by
  have hserving : servingLayer host.ignoreBitmap (paths.filterMap (layerAt host.entries)) sector =
      (newest (hasSector host.ignoreBitmap sector) (paths.filterMap (layerAt host.entries))).or
        (newest (hasBlock sector) (paths.filterMap (layerAt host.entries))) := rfl
  rw [hserving]
  cases hset : newest (hasSector host.ignoreBitmap sector)
      (paths.filterMap (layerAt host.entries)) with
  | some layer => exact .inl (greatest_of_newest hpaths henum h hset)
  | none =>
    have hno := none_of_newest hpaths henum hset
    rw [Option.none_or]
    cases halloc : newest (hasBlock sector) (paths.filterMap (layerAt host.entries)) with
    | some layer => exact .inr ⟨hno, greatest_of_newest hpaths henum h halloc⟩
    | none => exact none_of_newest hpaths henum halloc

/-- What is opened, for increments found in a given order. -/
theorem openLayered_found : ∃ store, openLayered host base paths = .ok store ∧
    store.sizeBytes = base.sizeBytes ∧ ∀ offset len bytes, offset + len ≤ base.sizeBytes →
      store.readAt offset len = .ok bytes → ∀ i < len, ∃ source,
        ServedBy (Numbered host image.base names) host.ignoreBitmap ((offset + i) / SECTOR) source ∧
          TakenFrom base (offset + i) bytes[i]? source := by
  have hserved := servedBy_servingLayer hpaths henum h
  cases paths with
  | nil =>
    refine ⟨base, rfl, rfl, fun offset len bytes hin hread i hi => ⟨none, hserved _, ?_⟩⟩
    exact ⟨offset, len, bytes, hin, hread, Nat.le_add_right offset i, by omega,
      by rw [Nat.add_sub_cancel_left]⟩
  | cons path rest =>
    have hopens : ∀ p ∈ path :: rest, ∃ layer, layerAt host.entries p = some layer ∧
        layer.virtualSize = base.sizeBytes ∧ layer.CoversDisk := by
      intro p hp
      obtain ⟨n, layer, -, hat, -, hsize, hcover⟩ := found_opens hpaths henum h hp
      exact ⟨layer, hat, hsize, hcover⟩
    have hlayers : ∀ layer ∈ (path :: rest).filterMap (layerAt host.entries),
        layer.virtualSize = base.sizeBytes ∧ layer.CoversDisk := by
      intro layer hl
      obtain ⟨p, hp, hat⟩ := List.mem_filterMap.1 hl
      obtain ⟨opened, hopened, hgood⟩ := hopens p hp
      rw [Option.some.inj (hat.symm.trans hopened)]
      exact hgood
    have hopen : openIncrements host.entries base.sizeBytes (path :: rest).reverse =
        .ok ((path :: rest).filterMap (layerAt host.entries)).reverse := by
      rw [← List.filterMap_reverse]
      refine openIncrements_ok fun p hp => ?_
      obtain ⟨layer, hat, hsize, -⟩ := hopens p (List.mem_reverse.1 hp)
      exact ⟨layer, hat, hsize⟩
    have hstore : openLayered host base (path :: rest) = .ok (ChainedVhd.store host.ignoreBitmap
        { overlays := ((path :: rest).filterMap (layerAt host.entries)).reverse, base }) := by
      rw [openLayered.eq_def]
      dsimp only
      rw [hopen]
    refine ⟨_, hstore, rfl, fun offset len bytes hin hread i hi => ⟨_, hserved _, ?_⟩⟩
    exact (readAt_takenFrom (fun l hl => (hlayers l hl).1) (fun l hl => (hlayers l hl).2) hin
      hread).2 i hi

end Found

/-- A VHD with increments beside it opens as one and the same disk whatever the order in which its
directory is read, and each byte is taken from the increment with the greatest number that serves
its sector. -/
theorem chain_reads_greatest_number (host : Host) (image : ImagePath) (names : List OsName)
    (base : BackingStore) (h : ChainBeside host image names base) :
    ∃ store : BackingStore, store.sizeBytes = base.sizeBytes ∧
      (∀ readDir listing, Enumerates names listing →
        (∀ dir, image.base.parent = some dir → readDir (dirToRead dir) = some listing) →
          openBacking { host with readDir } image = .ok store) ∧
      ∀ offset len bytes, offset + len ≤ base.sizeBytes → store.readAt offset len = .ok bytes →
        ∀ i < len, ∃ source,
          ServedBy (Numbered host image.base names) host.ignoreBitmap ((offset + i) / SECTOR) source ∧
            TakenFrom base (offset + i) bytes[i]? source := by
  have hsome : Enumerates names (names.map some) := by
    rw [Enumerates, List.filterMap_map]
    simp
  obtain ⟨store, hstore, hsize, hreads⟩ := openLayered_found rfl hsome h
  refine ⟨store, hsize, fun readDir listing henum hlisting => ?_, hreads⟩
  have hsame : findIncrements host.toLowercase image.base (fun _ => some listing) =
      findIncrements host.toLowercase image.base fun _ => some (names.map some) := by
    cases hparts : image.base.parts with
    | none => rw [findIncrements, findIncrements, hparts]
    | some parts => exact findIncrements_congr hparts h.distinct henum hsome
  have hbeside : ChainBeside { host with readDir } image names base :=
    ⟨h.opens, h.chained, h.distinct, h.layers⟩
  rw [openBacking_chain hbeside hlisting]
  dsimp only
  rw [hsame, ← hstore]
  rfl

theorem openVhd_of_dynamic {ignoreBitmap : Bool} {file : List UInt8} {vhd : DynamicVhd}
    (h : DynamicVhd.open file = .ok vhd) : openVhd ignoreBitmap file = .ok (vhd.store ignoreBitmap) := by
  have hopen := h
  rw [DynamicVhd.open] at hopen
  split at hopen
  · cases hopen
  · rename_i footer hfooter
    split at hopen
    · cases hopen
    · rename_i htype
      rw [not_not] at htype
      rw [openVhd, hfooter]
      dsimp only
      rw [htype, if_neg (by decide), if_pos rfl, h]

private theorem layerAt_numberedImages {path : EntryPath} {layer : DynamicVhd}
    (h : DynamicVhd.open (oneBlockIncrement 0x80 (if path.path = ascii "d/m.2.vhd" then 2 else 1)).bytes =
      .ok layer) : layerAt numberedImages.entries path = some layer := by
  rw [layerAt, openFile, numberedImages]
  split_ifs at h with hpath
  · simp only [hpath, if_true, h]
  · simp only [hpath, if_false, h]

/-- The increments are read in the order of their numbers, whichever is listed first. -/
theorem later_increment_read : ∃ base store : BackingStore,
    openBacking numberedImages ⟨ascii "d/m.vhd", imageM⟩ = .ok store ∧
    openBacking { numberedImages with readDir := fun _ => (numberedImages.readDir []).map List.reverse }
      ⟨ascii "d/m.vhd", imageM⟩ = .ok store ∧
    ∀ i < 3, ∃ source,
      ServedBy (Numbered numberedImages imageM [ascii "m.2.vhd", ascii "m.1.vhd"]) false (i / SECTOR)
        source ∧ TakenFrom base i (some 2) source := by
  obtain ⟨first, hfirst, hone⟩ := oneBlockIncrement_opens
  obtain ⟨second, hsecond, htwo⟩ : ∃ layer,
      DynamicVhd.open (oneBlockIncrement 0x80 2).bytes = .ok layer ∧ OneBlock 2 layer :=
    oneBlock_of_opens (by decide +kernel)
  have hbeside : ChainBeside numberedImages ⟨ascii "d/m.vhd", imageM⟩
      [ascii "m.2.vhd", ascii "m.1.vhd"] (first.store false) := by
    refine ⟨⟨_, rfl, by decide +kernel, openVhd_of_dynamic hfirst⟩, rfl, distinct_of_two ?_ ?_
      (show 2 ≠ 1 by decide), ?_⟩
    · exact layer_of_imageM "m.2.vhd" ['2'] (by decide) (by decide) (by decide) (by simp) (by decide)
    · exact layer_of_imageM "m.1.vhd" ['1'] (by decide) (by decide) (by decide) (by simp) (by decide)
    intro dir name n hdir hname hlayer
    cases hdir
    rw [List.mem_cons, List.mem_singleton] at hname
    rcases hname with rfl | rfl
    · exact ⟨second, layerAt_numberedImages hsecond, htwo.virtualSize_eq.trans hone.virtualSize_eq.symm,
        htwo.coversDisk⟩
    · exact ⟨first, layerAt_numberedImages hfirst, rfl, hone.coversDisk⟩
  obtain ⟨store, hsize, hopens, hreads⟩ := chain_reads_greatest_number numberedImages
    ⟨ascii "d/m.vhd", imageM⟩ [ascii "m.2.vhd", ascii "m.1.vhd"] (first.store false) hbeside
  obtain ⟨opened, hopened, hread⟩ := numberedImages_read
  have hsame := hopens numberedImages.readDir [some (ascii "m.2.vhd"), some (ascii "m.1.vhd")]
    (List.Perm.refl _) fun _ _ => rfl
  cases hsame.symm.trans hopened
  refine ⟨first.store false, store, hsame, hopens _ [some (ascii "m.1.vhd"), some (ascii "m.2.vhd")]
    (List.Perm.swap _ _ _) fun _ _ => rfl, fun i hi => ?_⟩
  have hin : 0 + 3 ≤ (first.store false).sizeBytes := by
    have hsizeBytes : (first.store false).sizeBytes = 512 := hone.virtualSize_eq
    rw [hsizeBytes]
    decide
  obtain ⟨source, hserved, htaken⟩ := hreads 0 3 [2, 2, 2] hin hread i hi
  rw [Nat.zero_add] at hserved htaken
  have htwo : ([2, 2, 2] : List UInt8)[i]? = some 2 :=
    (show ∀ i < 3, ([2, 2, 2] : List UInt8)[i]? = some 2 by decide) i hi
  exact ⟨source, hserved, htwo ▸ htaken⟩

end XBoot.Storage
