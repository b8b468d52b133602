import XBoot.NumberedLayers
import XBoot.ImageCommands

/-!
# Probing a chain

`xboot probe` reports what each layer and the base hold for one sector. The report names the layer
that the reader of the chain takes: the newest one with the bit set, or else with the block.
-/

namespace XBoot.Vhd

open Storage

def countOnes (b : UInt8) : ℕ := (List.range 8).countP fun i => b.toNat.testBit i

def DynamicVhd.blockBitCount (vhd : DynamicVhd) (sector : ℕ) : Outcome (Option ℕ) :=
  match vhd.bat[sector / vhd.sectorsPerBlock]? with
  | none => .error (invalidData "sector beyond BAT")
  | some entry =>
    if entry = HOLE then .ok none
    else match vhd.bitmaps[sector / vhd.sectorsPerBlock]? with
      | none => .error .panic
      | some none => .error (invalidData "allocated block without bitmap")
      | some (some bitmap) => .ok (some (bitmap.map countOnes).sum)

/-- What a layer holds for a sector; `raw8` is there when the block is. -/
structure ProbeLine where
  name : String
  blockBits : Option ℕ
  bitSet : Bool
  raw8 : Option (List UInt8)
  deriving DecidableEq, Repr

structure ProbeReport where
  layers : List ProbeLine
  base : List UInt8
  deriving DecidableEq, Repr

def readRaw (layer : DynamicVhd) : Option ℕ → Outcome (Option (List UInt8))
  | none => .ok none
  | some off => match layer.readPhys off 8 with
    | .error e => .error e
    | .ok raw => .ok (some raw)

def probeLayer (ignoreBitmap : Bool) (sector : ℕ) (name : String) (layer : DynamicVhd) :
    Outcome ProbeLine :=
  match layer.sectorOffset ignoreBitmap sector with
  | .error e => .error e
  | .ok bitset => match layer.blockSectorOffset sector with
    | .error e => .error e
    | .ok block => match layer.blockBitCount sector with
      | .error e => .error e
      | .ok blockBits => match readRaw layer block with
        | .error e => .error e
        | .ok raw8 => .ok { name, blockBits, bitSet := bitset.isSome, raw8 }

def hexByte (b : UInt8) : String :=
  String.ofList [Nat.digitChar (b.toNat / 16), Nat.digitChar (b.toNat % 16)]

def hexBytes (bytes : List UInt8) : String := "[" ++ ", ".intercalate (bytes.map hexByte) ++ "]"

def padName (name : String) : String :=
  name ++ String.ofList (List.replicate (16 - name.length) ' ')

def countText : Option ℕ → String
  | none => "None"
  | some n => s!"Some({n})"

def ProbeLine.text (line : ProbeLine) : String :=
  let raw := match line.raw8 with
    | none => String.ofList (List.replicate 4 '-')
    | some raw => hexBytes raw
  s!"  {padName line.name} alloc={line.raw8.isSome} blockbits={countText line.blockBits} " ++
    s!"bitset={line.bitSet} raw8={raw}\n"

def ProbeReport.text (offset : ℕ) (report : ProbeReport) : String :=
  s!"probe offset {offset} (sector {offset / SECTOR}):\n" ++
    String.join (report.layers.map ProbeLine.text) ++
    "  " ++ padName "BASE" ++ s!" base raw8={hexBytes report.base}\n"

end XBoot.Vhd

namespace XBoot.Commands

open BigEndian Utf8 Numerals Storage Vhd

/-- The loop over the increments, in the order in which they are opened. -/
def probeLayers (host : Host) (sector : ℕ) : List EntryPath → Outcome (List ProbeLine)
  | [] => .ok []
  | entry :: rest => match openFile host.entries entry.path with
    | .error e => .error e
    | .ok file => match DynamicVhd.open file.bytes with
      | .error e => .error e
      | .ok layer =>
        match probeLayer host.ignoreBitmap sector (fromUtf8Lossy entry.name) layer with
        | .error e => .error e
        | .ok line => match probeLayers host sector rest with
          | .error e => .error e
          | .ok lines => .ok (line :: lines)

def probeReport (host : Host) (image : ImagePath) (offset : ℕ) : Outcome ProbeReport :=
  match probeLayers host (offset / SECTOR) (host.increments image.base).reverse with
  | .error e => .error e
  | .ok layers => match openFile host.entries image.path with
    | .error e => .error e
    | .ok file => match openVhd host.ignoreBitmap file.bytes with
      | .error e => .error e
      | .ok base => match base.readAt offset 8 with
        | .error e => .error e
        | .ok raw => .ok { layers, base := raw }

def probe (host : Host) (image : ImagePath) (offset : ℕ) : Outcome String :=
  match probeReport host image offset with
  | .error e => .error e
  | .ok report => .ok (report.text offset)

/-- The `probe` command of `main`: its exit code and what it prints. -/
def runProbe (host : Host) : List ImagePath → Outcome (ExitCode × String)
  | image :: off :: _ => match parseUnsigned 64 (fromUtf8Lossy off.path) with
    | none => .ok (.usage, "")
    | some offset => match probe host image offset with
      | .error (.io _) => .ok (.failure, "")
      | .error e => .error e
      | .ok text => .ok (.success, text)
  | _ => .ok (.usage, "")

end XBoot.Commands

namespace XBoot.Vhd

open ListSlices UnitWalk PointReads Storage ChainedVhd

variable {ignoreBitmap : Bool} {sector off : ℕ} {name : String} {layer : DynamicVhd}
  {layers : List DynamicVhd} {line : ProbeLine} {lines : List ProbeLine}

/-- A sector with its bit set lies in its block. -/
theorem DynamicVhd.blockSectorOffset_of_set
    (h : layer.sectorOffset ignoreBitmap sector = .ok (some off)) :
    layer.blockSectorOffset sector = .ok (some off) := by
  rw [sectorOffset] at h
  rw [blockSectorOffset]
  split at h
  · cases h
  · split at h
    · cases h
    · rename_i hhole
      rw [if_neg hhole]
      split at h
      · exact h
      · split at h
        · cases h
        · cases h
        · split at h
          · cases h
          · split at h
            · exact h
            · cases h

structure Reports (ignoreBitmap : Bool) (sector : ℕ) (layer : DynamicVhd) (line : ProbeLine) : Prop where
  bitSet : ∃ set, layer.sectorOffset ignoreBitmap sector = .ok set ∧ line.bitSet = set.isSome
  block : ∃ block, layer.blockSectorOffset sector = .ok block ∧ readRaw layer block = .ok line.raw8

theorem reports_of_probeLayer (h : probeLayer ignoreBitmap sector name layer = .ok line) :
    Reports ignoreBitmap sector layer line := by
  rw [probeLayer] at h
  split at h
  · cases h
  · rename_i set hset
    split at h
    · cases h
    · rename_i block hblock
      split at h
      · cases h
      · split at h
        · cases h
        · rename_i raw hraw
          cases h
          exact ⟨⟨set, hset, rfl⟩, ⟨block, hblock, hraw⟩⟩

namespace Reports

theorem raw_of_block (h : Reports ignoreBitmap sector layer line)
    (hblock : layer.blockSectorOffset sector = .ok (some off)) :
    ∃ raw, line.raw8 = some raw ∧ layer.readPhys off 8 = .ok raw := by
  obtain ⟨block, hblock', hraw⟩ := h.block
  obtain rfl : some off = block := Except.ok.inj (hblock.symm.trans hblock')
  rw [readRaw] at hraw
  split at hraw
  · cases hraw
  · rename_i raw hread
    exact ⟨raw, (Except.ok.inj hraw).symm, hread⟩

theorem raw_none (h : Reports ignoreBitmap sector layer line)
    (hblock : layer.blockSectorOffset sector = .ok none) : line.raw8 = none := by
  obtain ⟨block, hblock', hraw⟩ := h.block
  obtain rfl : none = block := Except.ok.inj (hblock.symm.trans hblock')
  exact (Except.ok.inj hraw).symm

end Reports

/-- The line of the layer that serves the sector: the first one with the bit set, or else the first
one with the block. -/
def servingLine (lines : List ProbeLine) : Option ProbeLine :=
  (lines.find? (·.bitSet)).or (lines.find? (·.raw8.isSome))

/-- The layer taken has the raw bytes that its line says. -/
def TakenAs (layer : DynamicVhd) (off : ℕ) (line : ProbeLine) : Prop :=
  ∃ raw, line.raw8 = some raw ∧ layer.readPhys off 8 = .ok raw

/-- A search of the layers goes as the search of their lines. -/
theorem firstServing_of_lines (locate : DynamicVhd → Outcome (Option ℕ)) (P : ProbeLine → Bool)
    (h : List.Forall₂ (Reports ignoreBitmap sector) layers lines)
    (hP : ∀ layer line, Reports ignoreBitmap sector layer line → ∃ found, locate layer = .ok found ∧
      P line = found.isSome ∧ ∀ off, found = some off → TakenAs layer off line) :
    match lines.find? P with
    | none => firstServing locate layers = .ok none
    | some line => ∃ layer off, firstServing locate layers = .ok (some (layer, off)) ∧
        TakenAs layer off line := by
  induction h with
  | nil => rfl
  | @cons layer line layers lines hline _ ih =>
    obtain ⟨found, hfound, hsome, htaken⟩ := hP layer line hline
    rw [List.find?_cons, firstServing, hfound, hsome]
    cases found with
    | none => exact ih
    | some off => exact ⟨layer, off, rfl, htaken off rfl⟩

/-- The reader takes the layer of the serving line. -/
theorem serving_of_lines (h : List.Forall₂ (Reports ignoreBitmap sector) layers lines) :
    match servingLine lines with
    | none => serving ignoreBitmap layers sector = .ok none
    | some line => ∃ layer off, serving ignoreBitmap layers sector = .ok (some (layer, off)) ∧
        TakenAs layer off line := by
  have hset := firstServing_of_lines (fun layer => layer.sectorOffset ignoreBitmap sector) (·.bitSet) h
    fun layer line hline => by
      obtain ⟨set, hset, hbit⟩ := hline.bitSet
      refine ⟨set, hset, hbit, fun off hoff => ?_⟩
      rw [hoff] at hset
      exact hline.raw_of_block (DynamicVhd.blockSectorOffset_of_set hset)
  have hblock := firstServing_of_lines (fun layer => layer.blockSectorOffset sector)
    (·.raw8.isSome) h fun layer line hline => by
      obtain ⟨block, hblock, -⟩ := hline.block
      refine ⟨block, hblock, ?_, fun off hoff => hline.raw_of_block (hoff ▸ hblock)⟩
      cases block with
      | none =>
        rw [hline.raw_none hblock]
        rfl
      | some off =>
        obtain ⟨raw, hraw, -⟩ := hline.raw_of_block hblock
        rw [hraw]
        rfl
  rw [servingLine, serving]
  cases hfirst : lines.find? (·.bitSet) with
  | some line =>
    rw [hfirst] at hset
    obtain ⟨layer, off, hserves, htaken⟩ := hset
    exact ⟨layer, off, by rw [hserves], htaken⟩
  | none =>
    rw [hfirst] at hset
    rw [hset, Option.none_or]
    exact hblock

/-- The first bytes of a sector of a chain are those of the line's layer. -/
theorem read_of_serving (chain : ChainedVhd) {cells : ℕ → Option UInt8}
    (hcells : chain.base.Presents cells)
    (hfiles : ∀ layer ∈ chain.overlays, layer.file.length < 2 ^ 64)
    (hserving : serving ignoreBitmap chain.overlays sector = .ok (some (layer, off)))
    {raw : List UInt8} (hraw : layer.readPhys off 8 = .ok raw)
    (hin : sector * SECTOR + 8 ≤ chain.base.sizeBytes) :
    (chain.store ignoreBitmap).readAt (sector * SECTOR) 8 = .ok raw := by
  have hspells := readExactAt_spells.1 hraw
  rw [(store_presents chain hcells hfiles).reads hin]
  refine (spells_congr fun i hi => ?_).1 hspells
  have hdiv : (sector * SECTOR + i) / SECTOR = sector := by
    rw [SECTOR]
    omega
  have hmod : (sector * SECTOR + i) % SECTOR = i := by
    rw [SECTOR]
    omega
  rw [cell, hdiv, hmod, hserving]

theorem read_of_base (chain : ChainedVhd) {cells : ℕ → Option UInt8}
    (hcells : chain.base.Presents cells)
    (hfiles : ∀ layer ∈ chain.overlays, layer.file.length < 2 ^ 64) {offset n : ℕ}
    (hserving : serving ignoreBitmap chain.overlays (offset / SECTOR) = .ok none)
    (hinside : offset % SECTOR + n ≤ SECTOR) {raw : List UInt8} (hraw : chain.base.readAt offset n = .ok raw)
    (hin : offset + n ≤ chain.base.sizeBytes) :
    (chain.store ignoreBitmap).readAt offset n = .ok raw := by
  have hspells := (hcells.reads hin).1 hraw
  rw [(store_presents chain hcells hfiles).reads hin]
  refine (spells_congr fun i hi => ?_).1 hspells
  rw [cell, (mod_add_of_inside hinside hi).1, hserving]

end XBoot.Vhd

namespace XBoot.Commands

open ListSlices BigEndian Utf8 Numerals PointReads Storage Vhd ChainedVhd

variable {host : Host} {image : ImagePath} {offset sector : ℕ}

/-- The report has a line for each layer that is opened. -/
theorem reports_of_layers {virtualSize : ℕ} {paths : List EntryPath} {layers : List DynamicVhd}
    {lines : List ProbeLine} (hopen : openIncrements host.entries virtualSize paths = .ok layers)
    (hprobe : probeLayers host sector paths = .ok lines) :
    List.Forall₂ (Reports host.ignoreBitmap sector) layers lines := by
  induction paths generalizing layers lines with
  | nil =>
    cases hopen
    cases hprobe
    exact .nil
  | cons path rest ih =>
    rw [openIncrements] at hopen
    rw [probeLayers] at hprobe
    cases hfile : openFile host.entries path.path with
    | error e =>
      rw [hfile] at hopen
      cases hopen
    | ok file =>
      rw [hfile] at hopen hprobe
      dsimp only at hopen hprobe
      cases hlayer : DynamicVhd.open file.bytes with
      | error e =>
        rw [hlayer] at hopen
        cases hopen
      | ok layer =>
        rw [hlayer] at hopen hprobe
        dsimp only at hopen hprobe
        split at hopen
        · cases hopen
        · split at hopen
          · cases hopen
          · rename_i others hothers
            split at hprobe
            · cases hprobe
            · rename_i line hline
              split at hprobe
              · cases hprobe
              · rename_i lines hlines
                cases hopen
                cases hprobe
                exact .cons (reports_of_probeLayer hline) (ih hothers hlines)

/-- The report and the reader agree on the sector: the line of the serving layer shows the bytes at
the sector's beginning, and if there is none the base shows those at the offset. -/
def AgreesAt (store : BackingStore) (offset : ℕ) (report : ProbeReport) : Prop :=
  match servingLine report.layers with
  | some line => ∃ raw, line.raw8 = some raw ∧ store.readAt (offset / SECTOR * SECTOR) 8 = .ok raw
  | none => let n := min 8 (SECTOR - offset % SECTOR)
    store.readAt offset n = .ok (report.base.take n)

theorem probeReport_parts {report : ProbeReport} (h : probeReport host image offset = .ok report) :
    probeLayers host (offset / SECTOR) (host.increments image.base).reverse = .ok report.layers ∧
      ∃ file base, openFile host.entries image.path = .ok file ∧
        openVhd host.ignoreBitmap file.bytes = .ok base ∧ base.readAt offset 8 = .ok report.base := by
  rw [probeReport] at h
  split at h
  · cases h
  · rename_i layers hlayers
    split at h
    · cases h
    · rename_i file hfile
      split at h
      · cases h
      · rename_i base hbase
        split at h
        · cases h
        · rename_i raw hraw
          cases h
          exact ⟨hlayers, file, base, hfile, hbase, hraw⟩

theorem layered_agrees {base store : BackingStore} {cells : ℕ → Option UInt8}
    (hcells : base.Presents cells) {paths : List EntryPath} {report : ProbeReport}
    (hprobe : probeLayers host (offset / SECTOR) paths.reverse = .ok report.layers)
    (hbase : base.readAt offset 8 = .ok report.base)
    (hopen : openLayered host base paths = .ok store) : AgreesAt store offset report := by
  have hin : offset + 8 ≤ base.sizeBytes := by
    by_contra hout
    obtain ⟨error, herror⟩ := hcells.outside (Nat.lt_of_not_le hout)
    rw [hbase] at herror
    cases herror
  have hpart : base.readAt offset (min 8 (SECTOR - offset % SECTOR)) =
      .ok (report.base.take (min 8 (SECTOR - offset % SECTOR))) := by
    have hslice := ((hcells.reads hin).1 hbase).slice (o := 0) (n := min 8 (SECTOR - offset % SECTOR))
      (by omega)
    rw [slice, List.drop_zero, Nat.add_zero] at hslice
    exact (hcells.reads (by omega)).2 hslice
  have hmod := Nat.mod_lt offset (show 0 < SECTOR by decide)
  cases paths with
  | nil =>
    cases hopen
    have hnone : report.layers = [] := (Except.ok.inj hprobe).symm
    rw [AgreesAt, hnone]
    exact hpart
  | cons path rest =>
    rw [openLayered.eq_def] at hopen
    dsimp only at hopen
    split at hopen
    · cases hopen
    · rename_i overlays hoverlays
      cases hopen
      have hfiles := openIncrements_files hoverlays
      have hserving := serving_of_lines (reports_of_layers hoverlays hprobe)
      rw [AgreesAt]
      split
      · rename_i line hline
        rw [hline] at hserving
        obtain ⟨layer, off, hlayer, raw, hraw, hread⟩ := hserving
        have hdiv := Nat.div_mul_le_self offset SECTOR
        exact ⟨raw, hraw, read_of_serving ⟨overlays, base⟩ hcells hfiles hlayer hread
          (by dsimp only; omega)⟩
      · rename_i hline
        rw [hline] at hserving
        exact read_of_base ⟨overlays, base⟩ hcells hfiles hserving (by omega) hpart
          (by dsimp only; omega)

/-- What `probe` reports names the layer whose bytes the image opened with its increments has, and
the command prints it for every way to write the offset. -/
theorem probe_agrees_with_reads (host : Host) (image : ImagePath) (offset : ℕ) (text : String)
    (store : BackingStore) (hprobe : probe host image offset = .ok text)
    (hstore : openBacking host image = .ok store) (hchain : host.noChain = false)
    (hvhd : ∀ file, openFile host.entries image.path = .ok file →
      slice file.bytes 0 8 ≠ ascii "vhdxfile") :
    (∃ report, text = report.text offset ∧ AgreesAt store offset report) ∧
      ∀ off rest, parseUnsigned 64 (fromUtf8Lossy off.path) = some offset →
        runProbe host (image :: off :: rest) = .ok (.success, text) := by
  refine ⟨?_, fun off rest hoff => by simp only [runProbe, hoff, hprobe]⟩
  rw [probe] at hprobe
  split at hprobe
  · cases hprobe
  · rename_i report hreport
    cases hprobe
    obtain ⟨hlayers, file, base, hfile, hbase, hraw⟩ := probeReport_parts hreport
    obtain ⟨cells, hcells⟩ := openVhd_presents file.length_lt hbase
    refine ⟨report, rfl, layered_agrees hcells hlayers hraw ?_⟩
    rw [openBacking, hfile] at hstore
    dsimp only at hstore
    rw [if_neg fun hid => hvhd file hfile hid.2, if_pos (cookie_of_openVhd hbase), openChain,
      hbase] at hstore
    dsimp only at hstore
    rwa [hchain, if_neg Bool.false_ne_true] at hstore

private def succeeds {α : Type} : Outcome α → Bool
  | .ok _ => true
  | .error _ => false

private theorem exists_of_succeeds {α : Type} {r : Outcome α} (h : succeeds r = true) :
    ∃ a, r = .ok a := by
  cases r with
  | error e => cases h
  | ok a => exact ⟨a, rfl⟩

theorem two_increments_probed : ∃ store report,
    openBacking numberedImages ⟨ascii "d/m.vhd", imageM⟩ = .ok store ∧
      AgreesAt store 0 report ∧
      runProbe numberedImages [⟨ascii "d/m.vhd", imageM⟩, ⟨ascii "0", ⟨none, none⟩⟩] =
        .ok (.success, report.text 0) := by
  obtain ⟨report, hreport⟩ : ∃ report,
      probeReport numberedImages ⟨ascii "d/m.vhd", imageM⟩ 0 = .ok report :=
    exists_of_succeeds (by decide +kernel)
  obtain ⟨store, hstore⟩ : ∃ store,
      openBacking numberedImages ⟨ascii "d/m.vhd", imageM⟩ = .ok store :=
    exists_of_succeeds (by decide +kernel)
  obtain ⟨⟨report', htext, hagrees⟩, hprints⟩ := probe_agrees_with_reads numberedImages
    ⟨ascii "d/m.vhd", imageM⟩ 0 (report.text 0) store (by rw [probe, hreport]) hstore rfl (by
      intro file hfile
      cases hfile
      decide +kernel)
  refine ⟨store, report', hstore, hagrees, htext ▸ hprints ⟨ascii "0", ⟨none, none⟩⟩ [] ?_⟩
  decide +kernel

end XBoot.Commands
