import XBoot.NumberedLayers
import XBoot.TextLines

/-!
# The image commands

`xboot flatten` writes an opened image, with the increments beside it, as one VHD, and
`xboot dumpranges` writes ranges of an opened image one after another. Paths that name the same
file are the same path.
-/

namespace XBoot.Commands

open ListSlices BigEndian Storage Vhd Numerals TextLines

inductive ExitCode where
  | success
  | failure
  | usage
  deriving DecidableEq, Repr

/-- The machine a command runs on, where different paths name different files. -/
structure Machine extends Host where
  -- the error of `File::create`, where it fails
  createError : OsName → Option IoError
  -- whether there is memory for a buffer of so many bytes
  allocates : ℕ → Bool
  secsSince2000 : ℕ

def pathExists (entries : Entries) (path : OsName) : Bool :=
  match entries path with
  | .absent _ => false
  | .file _ => true
  | .closed _ => true

def emptyFile : FileBytes := ⟨[], Nat.two_pow_pos 64⟩

/-- The bytes as a file, if a file can be so long. -/
def fileOf (bytes : List UInt8) : Option FileBytes :=
  if h : bytes.length < 2 ^ 64 then some ⟨bytes, h⟩ else none

/-- The end of `run_flatten`, by what writing the output has come to. -/
def flattenInto (entries : Entries) (output : OsName) :
    Outcome (List UInt8) → Outcome (ExitCode × Entries)
  -- the unfinished output is removed
  | .error (.io _) => .ok (.failure, entries)
  | .error e => .error e
  | .ok bytes => match fileOf bytes with
    | none => .ok (.failure, entries)
    | some file => .ok (.success, Function.update entries output (.file file))

/-- `run_flatten`: the exit code and the files afterwards, or how it ended without one. -/
def runFlatten (m : Machine) : List ImagePath → Outcome (ExitCode × Entries)
  | input :: output :: _ =>
    if pathExists m.entries output.path then .ok (.failure, m.entries)
    else match openBacking m.toHost input with
      | .error (.io _) => .ok (.failure, m.entries)
      | .error e => .error e
      | .ok source => match m.createError output.path with
        | some _ => .ok (.failure, m.entries)
        | none => flattenInto m.entries output.path (writeDynamicVhd m.secsSince2000 source)
  | _ => .ok (.usage, m.entries)

/-- The numbers of a line: none on a blank one, an error where there are not two. -/
def rangeOf (line : List Char) : Except ExitCode (Option (ℕ × ℕ)) :=
  let line := trim line
  if line = [] then .ok none
  else match splitWhitespace line with
    | off :: len :: _ =>
      match parseUnsigned 64 (String.ofList off), parseUnsigned 64 (String.ofList len) with
      | some off, some len => .ok (some (off, len))
      | _, _ => .error .failure
    | _ => .error .failure

/-- The loop of `run_dumpranges` over the lines, with what the output holds so far. -/
def dumpLines (allocates : ℕ → Bool) (source : BackingStore) :
    List (List Char) → FileBytes → Outcome ExitCode × FileBytes
  | [], out => (.ok .success, out)
  | line :: rest, out => match rangeOf line with
    | .error code => (.ok code, out)
    | .ok none => dumpLines allocates source rest out
    | .ok (some (off, len)) =>
      -- a `Vec` holds at most `isize::MAX` bytes, and the process aborts when there is no memory
      if 2 ^ 63 ≤ len ∨ allocates len = false then (.error .panic, out)
      else match source.readAt off len with
        | .error (.io _) => (.ok .failure, out)
        | .error e => (.error e, out)
        | .ok bytes => match fileOf (out.bytes ++ bytes) with
          | none => (.ok .failure, out)
          | some out => dumpLines allocates source rest out

/-- The files that an opened image goes on to read. -/
def imageFiles (host : Host) (image : ImagePath) : List OsName :=
  image.path :: match openFile host.entries image.path with
    | .error _ => []
    | .ok file =>
      let len := file.bytes.length
      if 8 ≤ len ∧ slice file.bytes 0 8 = ascii "vhdxfile" then []
      else if 512 ≤ len ∧ slice file.bytes (len - 512) 8 = ascii "conectix" then
        if host.noChain then [] else (host.increments image.base).map EntryPath.path
      else []

/-- `run_dumpranges`: how it ends and the files afterwards. There is no result where the output that
it creates is a file of the image, since the image would then be read from what is written. -/
def runDumpranges (m : Machine) : List ImagePath → Option (Outcome ExitCode × Entries)
  | input :: ranges :: output :: _ => match openBacking m.toHost input with
    | .error (.io _) => some (.ok .failure, m.entries)
    | .error e => some (.error e, m.entries)
    | .ok source => match openFile m.entries ranges.path with
      | .error _ => some (.ok .failure, m.entries)
      | .ok file => match toStr file.bytes with
        | none => some (.ok .failure, m.entries)
        | some text => match m.createError output.path with
          | some _ => some (.ok .failure, m.entries)
          | none =>
            if output.path ∈ imageFiles m.toHost input then none
            else
              let (code, out) := dumpLines m.allocates source (lines text.toList) emptyFile
              some (code, Function.update m.entries output.path (.file out))
  | _ => some (.ok .usage, m.entries)

end XBoot.Commands

namespace XBoot.Vhd

open ListSlices BigEndian Storage

variable {source : BackingStore} {secs : ℕ}

theorem writeBlocks_reads {remaining i : ℕ} {w w' : Writer}
    (h : writeBlocks source remaining i w = .ok w') {j : ℕ} (hi : i ≤ j) (hj : j < i + remaining) :
    ∃ bytes, source.readAt (j * DEFAULT_BLOCK_SIZE)
      (min DEFAULT_BLOCK_SIZE (source.sizeBytes - j * DEFAULT_BLOCK_SIZE)) = .ok bytes := by
  induction remaining generalizing i w with
  | zero => omega
  | succ remaining ih =>
    rw [writeBlocks] at h
    split at h
    · cases h
    · rename_i next hnext
      rcases Nat.eq_or_lt_of_le hi with rfl | hlt
      · rw [writeBlock] at hnext
        dsimp only at hnext
        split at hnext
        · cases hnext
        · exact ⟨_, by assumption⟩
      · exact ih h hlt (by omega)

theorem serves_of_written {cells : ℕ → Option UInt8} (hcells : source.Presents cells)
    {file : List UInt8} (h : writeDynamicVhd secs source = .ok file) :
    ∃ content, source.Serves content := by
  have hreads : ∀ p < source.sizeBytes, (cells p).isSome = true := by
    intro p hp
    rw [writeDynamicVhd] at h
    dsimp only at h
    split at h
    · cases h
    · split at h
      · cases h
      · rename_i w hblocks
        have hdiv := Nat.div_add_mod' p DEFAULT_BLOCK_SIZE
        have hmod := Nat.mod_lt p (show 0 < DEFAULT_BLOCK_SIZE by decide)
        have hblock : p / DEFAULT_BLOCK_SIZE < 0 + nBlocksOf source.sizeBytes := by
          rw [nBlocksOf, DEFAULT_BLOCK_SIZE] at *
          omega
        obtain ⟨bytes, hbytes⟩ := writeBlocks_reads hblocks (Nat.zero_le _) hblock
        have hall := (hcells.succeeds_iff (by omega)).1 ⟨bytes, hbytes⟩ (p % DEFAULT_BLOCK_SIZE) (by omega)
        rwa [hdiv] at hall
  obtain ⟨content, hserves, -⟩ := hcells.serves hreads
  exact ⟨content, hserves⟩

theorem cookie_of_written {content : List UInt8} (hs : source.Serves content) {file : List UInt8}
    (h : writeDynamicVhd secs source = .ok file) : slice file 0 8 = ascii "conectix" := by
  have hfront := length_footerFront secs source.sizeBytes
  rw [writeDynamicVhd_eq hs secs (nBlocks_of_written h), fileFront, buildFooter] at h
  cases h
  simp only [List.append_assoc]
  rw [slice_append_left (by omega), (footerFront_fields secs source.sizeBytes).1]

theorem length_written_lt {content : List UInt8} (hs : source.Serves content) {file : List UInt8}
    (h : writeDynamicVhd secs source = .ok file) : file.length < 2 ^ 64 := by
  have hn := nBlocks_of_written h
  have hcount := Nat.count_le (p := fun j => stored content j = true) (n := nBlocksOf source.sizeBytes)
  have hbytes := Nat.mul_le_mul_left storedSize hcount
  have hsize : storedSize = 2097664 := by decide
  rw [writeDynamicVhd_eq hs secs hn] at h
  cases h
  rw [List.length_append, List.length_append, length_fileFront, length_storedBlocks,
    length_buildFooter, blocksStart, batPadded, SECTOR]
  rw [hsize] at *
  omega

theorem serves_of_fits {ignoreBitmap : Bool} {content : List UInt8} (hs : source.Serves content)
    (hfits : Fits source.sizeBytes (stored content)) {file : List UInt8}
    (h : writeDynamicVhd secs source = .ok file) :
    ∃ store, openVhd ignoreBitmap file = .ok store ∧ store.Serves content := by
  obtain ⟨store, hopen, hsize, hreads⟩ := roundTrips_of_fits hs hfits file h
  exact ⟨store, hopen, hs.length_eq.trans hsize.symm, fun hin => hreads _ _ (by rwa [hsize] at hin)⟩

end XBoot.Vhd

namespace XBoot.Commands

open ListSlices BigEndian Storage Vhd Numerals TextLines

variable {m after : Machine} {input output : ImagePath} {rest : List ImagePath} {entries : Entries}

/-- What a flattening that succeeds has done. -/
structure Flattened (m : Machine) (input output : ImagePath) (source : BackingStore)
    (bytes : List UInt8) (entries : Entries) : Prop where
  isNew : pathExists m.entries output.path = false
  opened : openBacking m.toHost input = .ok source
  written : writeDynamicVhd m.secsSince2000 source = .ok bytes
  entries_eq : ∃ h, entries = Function.update m.entries output.path (.file ⟨bytes, h⟩)

theorem fileOf_eq_some {bytes : List UInt8} {file : FileBytes} (h : fileOf bytes = some file) :
    ∃ hlen, file = ⟨bytes, hlen⟩ := by
  rw [fileOf] at h
  split at h
  · rename_i hlen
    cases h
    exact ⟨hlen, rfl⟩
  · cases h

theorem flattenInto_cases {path : OsName} {written : Outcome (List UInt8)} {code : ExitCode}
    {before : Entries} (h : flattenInto before path written = .ok (code, entries)) :
    code = .success ∧ (∃ bytes hlen, written = .ok bytes ∧
        entries = Function.update before path (.file ⟨bytes, hlen⟩)) ∨
      code ≠ .success ∧ entries = before := by
  rw [flattenInto.eq_def] at h
  split at h
  · cases h
    exact .inr ⟨by decide, rfl⟩
  · cases h
  · rename_i bytes
    split at h
    · cases h
      exact .inr ⟨by decide, rfl⟩
    · rename_i file hfile
      cases h
      obtain ⟨hlen, rfl⟩ := fileOf_eq_some hfile
      exact .inl ⟨rfl, bytes, hlen, rfl, rfl⟩

/-- A flattening succeeds with the file that it has written, or leaves all files as they were. -/
theorem runFlatten_cases {code : ExitCode}
    (h : runFlatten m (input :: output :: rest) = .ok (code, entries)) :
    code = .success ∧ (∃ source bytes, Flattened m input output source bytes entries) ∨
      code ≠ .success ∧ entries = m.entries := by
  rw [runFlatten] at h
  split at h
  · cases h
    exact .inr ⟨by decide, rfl⟩
  · rename_i hnew
    rw [Bool.not_eq_true] at hnew
    split at h
    · cases h
      exact .inr ⟨by decide, rfl⟩
    · cases h
    · rename_i source hsource
      split at h
      · cases h
        exact .inr ⟨by decide, rfl⟩
      · rcases flattenInto_cases h with ⟨hcode, bytes, hlen, hwritten, hentries⟩ | hno
        · exact .inl ⟨hcode, source, bytes, hnew, hsource, hwritten, hlen, hentries⟩
        · exact .inr hno

theorem flatten_succeeds {source : BackingStore} {content : List UInt8}
    (hnew : pathExists m.entries output.path = false)
    (hopen : openBacking m.toHost input = .ok source) (hs : source.Serves content)
    (hcreate : m.createError output.path = none) (hn : nBlocksOf source.sizeBytes ≤ 2 ^ 32 - 1) :
    ∃ entries, runFlatten m (input :: output :: rest) = .ok (.success, entries) := by
  obtain ⟨bytes, hwritten⟩ : ∃ bytes, writeDynamicVhd m.secsSince2000 source = .ok bytes :=
    ⟨_, writeDynamicVhd_eq hs _ hn⟩
  have hlen := length_written_lt hs hwritten
  have hfile : fileOf bytes = some ⟨bytes, hlen⟩ := by rw [fileOf, dif_pos hlen]
  refine ⟨Function.update m.entries output.path (.file ⟨bytes, hlen⟩), ?_⟩
  rw [runFlatten, hnew, if_neg Bool.false_ne_true, hopen]
  dsimp only
  rw [hcreate, hwritten, flattenInto, hfile]

/-- The image is opened alone: no increments are looked for, or none are found. -/
def Standalone (host : Host) (image : ImagePath) : Prop :=
  host.noChain = true ∨ host.increments image.base = []

theorem openBacking_standalone {host : Host} {image : ImagePath} {file : FileBytes}
    {store : BackingStore} (hfile : host.entries image.path = .file file)
    (hvhdx : slice file.bytes 0 8 ≠ ascii "vhdxfile")
    (hopen : openVhd host.ignoreBitmap file.bytes = .ok store) (halone : Standalone host image) :
    openBacking host image = .ok store := by
  rw [openBacking, openFile, hfile]
  dsimp only
  rw [if_neg fun hid => hvhdx hid.2, if_pos (cookie_of_openVhd hopen), openChain, hopen]
  dsimp only
  rcases halone with hno | hnone
  · rw [if_pos hno]
  · rw [hnone]
    split
    · rfl
    · rfl

theorem imageFiles_standalone {host : Host} {image : ImagePath} (h : Standalone host image) :
    imageFiles host image = [image.path] := by
  have hnone : (if host.noChain then [] else (host.increments image.base).map EntryPath.path) = [] := by
    rcases h with hno | hnone
    · rw [if_pos hno]
    · rw [hnone, List.map_nil, ite_self]
  rw [imageFiles]
  split
  · rfl
  · dsimp only
    rw [hnone, ite_self, ite_self]

theorem copy_opens {source : BackingStore} {bytes content : List UInt8}
    (hflat : Flattened m input output source bytes entries) (hserves : source.Serves content)
    (hfits : Fits source.sizeBytes (stored content)) {after : Host} (hafter : after.entries = entries)
    (halone : Standalone after output) :
    ∃ copy, openBacking after output = .ok copy ∧ copy.Serves content := by
  obtain ⟨hlen, hentries⟩ := hflat.entries_eq
  obtain ⟨copy, hcopy, hsame⟩ := serves_of_fits hserves hfits hflat.written
  have hfile : after.entries output.path = .file ⟨bytes, hlen⟩ := by
    rw [hafter, hentries, Function.update_self]
  refine ⟨copy, openBacking_standalone hfile ?_ hcopy halone, hsame⟩
  rw [cookie_of_written hserves hflat.written]
  decide

/-- A flattening that succeeds changes its output alone, which then opens as the disk that the
input with its increments was, as far as the sector numbers fit; one that does not succeed changes
nothing. -/
theorem flatten_keeps_disk (m : Machine) (input output : ImagePath) (rest : List ImagePath)
    (code : ExitCode) (entries : Entries)
    (h : runFlatten m (input :: output :: rest) = .ok (code, entries)) :
    (code ≠ .success → entries = m.entries) ∧
      (code = .success → (∀ path, path ≠ output.path → entries path = m.entries path) ∧
        ∃ source content, openBacking m.toHost input = .ok source ∧ source.Serves content ∧
          (Fits source.sizeBytes (stored content) →
            ∀ after : Host, after.entries = entries → Standalone after output →
              ∃ copy, openBacking after output = .ok copy ∧ copy.Serves content)) := by
  rcases runFlatten_cases h with ⟨rfl, source, bytes, hflat⟩ | ⟨hcode, hsame⟩
  · refine ⟨fun hno => absurd rfl hno, fun _ => ?_⟩
    obtain ⟨hlen, hentries⟩ := hflat.entries_eq
    refine ⟨fun path hpath => by rw [hentries, Function.update_of_ne hpath], ?_⟩
    obtain ⟨cells, hcells⟩ := openBacking_presents hflat.opened
    obtain ⟨content, hserves⟩ := serves_of_written hcells hflat.written
    exact ⟨source, content, hflat.opened, hserves, fun hfits after hafter halone =>
      copy_opens hflat hserves hfits hafter halone⟩
  · exact ⟨fun _ => hsame, fun hok => absurd hok hcode⟩

/-- A machine with a one-byte image `i` and the text `r` of one range. -/
def smallMachine : Machine where
  entries path :=
    if path = ascii "i" then .file ⟨[1], by decide⟩
    else if path = ascii "r" then .file ⟨ascii "0 1\n", by decide⟩
    else .absent (.other "not found")
  readDir _ := none
  toLowercase s := s
  noChain := true
  ignoreBitmap := false
  createError _ := none
  allocates len := len ≤ 2 ^ 20
  secsSince2000 := 0

def here (name : String) : ImagePath := ⟨ascii name, ⟨some [], some (ascii name)⟩⟩

theorem small_image_opens :
    openBacking smallMachine.toHost (here "i") = .ok (rawFile [1] (by decide)) := rfl

theorem small_image_flattens :
    ∃ entries, runFlatten smallMachine [here "i", here "o"] = .ok (.success, entries) :=
  flatten_succeeds rfl small_image_opens (rawFile_serves _ _) rfl (by decide)

theorem small_image_kept : ∃ entries,
    runFlatten smallMachine [here "i", here "o"] = .ok (.success, entries) ∧
      ∀ path, path ≠ ascii "o" → entries path = smallMachine.entries path := by
  obtain ⟨entries, hrun⟩ := small_image_flattens
  exact ⟨entries, hrun, ((flatten_keeps_disk _ _ _ _ _ _ hrun).2 rfl).1⟩

variable {allocates : ℕ → Bool} {source source' : BackingStore} {content : List UInt8}

theorem dumpLines_congr (hs : source.Serves content) (hs' : source'.Serves content)
    (hout : ReadsBytewise source) (hout' : ReadsBytewise source') (ls : List (List Char))
    (out : FileBytes) : dumpLines allocates source ls out = dumpLines allocates source' ls out := by
  have hsize : source'.sizeBytes = source.sizeBytes := hs'.length_eq.symm.trans hs.length_eq
  induction ls generalizing out with
  | nil => rfl
  | cons line rest ih =>
    rw [dumpLines, dumpLines]
    split
    · rfl
    · exact ih out
    · rename_i off len hrange
      split
      · rfl
      · rcases Nat.lt_or_ge source.sizeBytes (off + len) with hbeyond | hin
        · obtain ⟨error, herror⟩ := hout.outside hbeyond
          obtain ⟨error', herror'⟩ := hout'.outside (hsize ▸ hbeyond)
          rw [herror, herror']
        · rw [hs.readAt_eq hin, hs'.readAt_eq (by omega)]
          dsimp only
          split
          · rfl
          · exact ih _

/-- What a dump does once its image is open. -/
theorem runDumpranges_congr {m after : Machine} {input input' ranges dump : ImagePath}
    (hopen : openBacking m.toHost input = .ok source)
    (hopen' : openBacking after.toHost input' = .ok source')
    (hlines : ∀ ls out, dumpLines m.allocates source ls out = dumpLines after.allocates source' ls out)
    (hranges : after.entries ranges.path = m.entries ranges.path)
    (hdump : after.entries dump.path = m.entries dump.path)
    (hcreate : after.createError dump.path = m.createError dump.path)
    (hapart : dump.path ∉ imageFiles m.toHost input)
    (hapart' : dump.path ∉ imageFiles after.toHost input') :
    ∃ code entries entries', runDumpranges m [input, ranges, dump] = some (code, entries) ∧
      runDumpranges after [input', ranges, dump] = some (code, entries') ∧
      entries' dump.path = entries dump.path := by
  have hfile : openFile after.entries ranges.path = openFile m.entries ranges.path := by
    rw [openFile, openFile, hranges]
  rw [runDumpranges, runDumpranges, hopen, hopen', hfile, hcreate]
  dsimp only
  split
  · exact ⟨_, _, _, rfl, rfl, hdump⟩
  · split
    · exact ⟨_, _, _, rfl, rfl, hdump⟩
    · split
      · exact ⟨_, _, _, rfl, rfl, hdump⟩
      · rw [if_neg hapart, if_neg hapart', ← hlines]
        refine ⟨_, _, _, rfl, rfl, ?_⟩
        rw [Function.update_self, Function.update_self]

theorem fits_of_one_block {size : ℕ} (h : nBlocksOf size ≤ 1) (alloc : ℕ → Bool) : Fits size alloc := by
  intro i hi _
  have hle := startSector_le (nBlocksOf size) alloc i
  have hone : nBlocksOf size = 1 := by omega
  have hstart : blocksStart 1 / SECTOR = 4 := by decide
  have hzero : i = 0 := by omega
  rw [hone, hstart, hzero] at hle
  rw [hone, hzero, HOLE]
  omega

def rangesOf : List (List Char) → Option (List (ℕ × ℕ))
  | [] => some []
  | line :: rest => match rangeOf line with
    | .error _ => none
    | .ok none => rangesOf rest
    | .ok (some range) => (rangesOf rest).map (range :: ·)

def bytesOf (content : List UInt8) (ranges : List (ℕ × ℕ)) : List UInt8 :=
  ranges.flatMap fun range => slice content range.1 range.2

theorem rangeOf_error {line : List Char} {code : ExitCode} (h : rangeOf line = .error code) :
    code = .failure := by
  rw [rangeOf] at h
  split at h
  · cases h
  · split at h
    · split at h
      · cases h
      · cases h
        rfl
    · cases h
      rfl

theorem fileOf_append {out : FileBytes} {bytes more : List UInt8}
    (h : (out.bytes ++ (bytes ++ more)).length < 2 ^ 64) :
    ∃ file, fileOf (out.bytes ++ bytes) = some file ∧ file.bytes = out.bytes ++ bytes := by
  have hlen : (out.bytes ++ bytes).length < 2 ^ 64 := by
    rw [List.length_append, List.length_append] at h
    rw [List.length_append]
    omega
  exact ⟨⟨_, hlen⟩, by rw [fileOf, dif_pos hlen], rfl⟩

/-- The output has grown by the ranges on the first lines, by all of them after a success. -/
def DumpsPrefix (source : BackingStore) (content : List UInt8) (ls : List (List Char))
    (out out' : FileBytes) (code : Outcome ExitCode) : Prop :=
  ∃ done ranges, done <+: ls ∧ rangesOf done = some ranges ∧
    (∀ range ∈ ranges, range.1 + range.2 ≤ source.sizeBytes) ∧
    out'.bytes = out.bytes ++ bytesOf content ranges ∧ (code = .ok .success → done = ls)

namespace DumpsPrefix

variable {line : List Char} {rest : List (List Char)} {out out' : FileBytes} {code : Outcome ExitCode}

theorem none_left (source : BackingStore) (content : List UInt8) (out : FileBytes)
    (code : Outcome ExitCode) : DumpsPrefix source content [] out out code :=
  ⟨[], [], List.prefix_refl _, rfl, by simp, by simp [bytesOf], fun _ => rfl⟩

theorem stopped (source : BackingStore) (content : List UInt8) (ls : List (List Char))
    (out : FileBytes) (hcode : code ≠ .ok .success) : DumpsPrefix source content ls out out code :=
  ⟨[], [], List.nil_prefix, rfl, by simp, by simp [bytesOf], fun hok => absurd hok hcode⟩

theorem skip (h : DumpsPrefix source content rest out out' code) (hblank : rangeOf line = .ok none) :
    DumpsPrefix source content (line :: rest) out out' code := by
  obtain ⟨done, ranges, hdone, hranges, hin, hbytes, hall⟩ := h
  refine ⟨line :: done, ranges, (List.prefix_cons_inj line).2 hdone, ?_, hin, hbytes,
    fun hok => by rw [hall hok]⟩
  rw [rangesOf, hblank]
  exact hranges

theorem dump {off len : ℕ} {file : FileBytes} (h : DumpsPrefix source content rest file out' code)
    (hrange : rangeOf line = .ok (some (off, len))) (hinside : off + len ≤ source.sizeBytes)
    (hfile : file.bytes = out.bytes ++ slice content off len) :
    DumpsPrefix source content (line :: rest) out out' code := by
  obtain ⟨done, ranges, hdone, hranges, hin, hbytes, hall⟩ := h
  refine ⟨line :: done, (off, len) :: ranges, (List.prefix_cons_inj line).2 hdone, ?_,
    List.forall_mem_cons.2 ⟨hinside, hin⟩, ?_, fun hok => by rw [hall hok]⟩
  · rw [rangesOf, hrange]
    dsimp only
    rw [hranges, Option.map_some]
  · rw [hbytes, hfile, List.append_assoc]
    rfl

end DumpsPrefix

/-- Whatever the lines, the output holds the ranges of the first of them. -/
theorem dumpLines_prefix (hs : source.Serves content) (hout : ReadsBytewise source)
    {ls : List (List Char)} {out out' : FileBytes} {code : Outcome ExitCode}
    (h : dumpLines allocates source ls out = (code, out')) :
    DumpsPrefix source content ls out out' code := by
  induction ls generalizing out with
  | nil =>
    cases h
    exact .none_left _ _ _ _
  | cons line rest ih =>
    rw [dumpLines] at h
    split at h
    · rename_i failed hfailed
      rw [rangeOf_error hfailed] at h
      cases h
      exact .stopped _ _ _ _ (by decide)
    · rename_i hblank
      exact (ih h).skip hblank
    · rename_i off len hrange
      split at h
      · cases h
        exact .stopped _ _ _ _ (by simp)
      · rcases Nat.lt_or_ge source.sizeBytes (off + len) with hbeyond | hinside
        · obtain ⟨error, herror⟩ := hout.outside hbeyond
          rw [herror] at h
          cases h
          exact .stopped _ _ _ _ (by simp)
        · rw [hs.readAt_eq hinside] at h
          dsimp only at h
          split at h
          · cases h
            exact .stopped _ _ _ _ (by simp)
          · rename_i file hfile
            obtain ⟨hlen, rfl⟩ := fileOf_eq_some hfile
            exact (ih h).dump hrange hinside rfl

/-- Lines of ranges inside the disk are all dumped. -/
theorem dumpLines_succeeds (hs : source.Serves content) {ls : List (List Char)} {out : FileBytes}
    {ranges : List (ℕ × ℕ)} (hranges : rangesOf ls = some ranges)
    (hin : ∀ range ∈ ranges, range.2 < 2 ^ 63 ∧ allocates range.2 = true ∧
      range.1 + range.2 ≤ source.sizeBytes)
    (hlen : (out.bytes ++ bytesOf content ranges).length < 2 ^ 64) :
    (dumpLines allocates source ls out).1 = .ok .success := by
  induction ls generalizing out ranges with
  | nil => rfl
  | cons line rest ih =>
    rw [rangesOf] at hranges
    rw [dumpLines]
    split at hranges
    · cases hranges
    · rename_i hblank
      rw [hblank]
      exact ih hranges hin hlen
    · rename_i range hrange
      obtain ⟨others, hothers, rfl⟩ := Option.map_eq_some_iff.1 hranges
      obtain ⟨off, len⟩ := range
      obtain ⟨hvec, hmemory, hinside⟩ := hin (off, len) List.mem_cons_self
      have hbuffer : ¬ (2 ^ 63 ≤ len ∨ allocates len = false) := by
        rw [hmemory]
        exact not_or.2 ⟨Nat.not_le.2 hvec, Bool.noConfusion⟩
      obtain ⟨file, hfile, hbytes⟩ : ∃ file, fileOf (out.bytes ++ slice content off len) = some file ∧
          file.bytes = out.bytes ++ slice content off len := fileOf_append hlen
      rw [hrange]
      dsimp only
      rw [if_neg hbuffer, hs.readAt_eq hinside]
      dsimp only
      rw [hfile]
      refine ih hothers (fun range hrange => hin range (List.mem_cons_of_mem _ hrange)) ?_
      rw [hbytes, List.append_assoc]
      exact hlen

def rangeLine (range : ℕ × ℕ) : List Char := (toString range.1).toList ++ ' ' :: (toString range.2).toList

def rangesText (ranges : List (ℕ × ℕ)) : String :=
  String.ofList ((ranges.map rangeLine).flatMap (· ++ ['\n']))

theorem rangeOf_rangeLine {range : ℕ × ℕ} (hoff : range.1 < 2 ^ 64) (hlen : range.2 < 2 ^ 64) :
    rangeOf (rangeLine range) = .ok (some range) := by
  have hplain (n : ℕ) : ∀ c ∈ (toString n).toList, isWhitespace c = false :=
    fun c hc => (not_blank_of_isDigit (isDigit_of_mem_toString hc)).1
  have hne (n : ℕ) : (toString n).toList ≠ [] := by
    rw [toList_toString]
    exact Nat.toDigits_ne_nil
  have htight : Tight (rangeLine range) := by
    constructor
    · intro c hc
      rw [rangeLine, List.head?_append, List.head?_eq_some_head (hne _), Option.some_or] at hc
      exact hplain range.1 c (List.mem_of_head? (by rw [← hc, List.head?_eq_some_head (hne _)]))
    · intro c hc
      rw [rangeLine, List.getLast?_append, List.getLast?_cons,
        List.getLast?_eq_some_getLast (hne _)] at hc
      exact hplain range.2 c (List.mem_of_getLast? (by
        rw [List.getLast?_eq_some_getLast (hne _)]
        exact hc))
  have hwords : splitWhitespace (rangeLine range) =
      [(toString range.1).toList, (toString range.2).toList] := by
    rw [rangeLine, splitWhitespace_cons (hne _) (hplain _) (by decide),
      splitWhitespace_word (hne _) (hplain _)]
  rw [rangeOf, trim_tight htight, if_neg (by simp [rangeLine]), hwords]
  dsimp only
  rw [String.ofList_toList, String.ofList_toList, parseUnsigned_toString hoff,
    parseUnsigned_toString hlen]

/-- The ranges of a text are those that it was written of. -/
theorem rangesOf_rangesText {ranges : List (ℕ × ℕ)}
    (h : ∀ range ∈ ranges, range.1 < 2 ^ 64 ∧ range.2 < 2 ^ 64) :
    rangesOf (lines (rangesText ranges).toList) = some ranges := by
  rw [rangesText, String.toList_ofList, lines_flatMap]
  · induction ranges with
    | nil => rfl
    | cons range rest ih =>
      obtain ⟨hoff, hlen⟩ := h range List.mem_cons_self
      rw [List.map_cons, rangesOf, rangeOf_rangeLine hoff hlen]
      dsimp only
      rw [ih fun r hr => h r (List.mem_cons_of_mem _ hr), Option.map_some]
  · intro line hline c hc
    obtain ⟨range, -, rfl⟩ := List.mem_map.1 hline
    rw [rangeLine] at hc
    rcases List.mem_append.1 hc with hc | hc
    · exact (not_blank_of_isDigit (isDigit_of_mem_toString hc)).2
    · rcases List.mem_cons.1 hc with rfl | hc
      · exact ⟨by decide, by decide⟩
      · exact (not_blank_of_isDigit (isDigit_of_mem_toString hc)).2

end XBoot.Commands
