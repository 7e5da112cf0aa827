import PallasDB.Db.DurableKV

/-! # The two metadata slots on the disk

`KVMetaStore.Set` writes the slot that is not current over whatever that slot holds, without truncating it, and
flushes it. `Open` reads both slots and counts one that it cannot read as version zero, so that the other one
is current and the next `Set` heals the damaged one. A `Set` that fails or is cut short by a crash leaves any
bytes in the slot it writes; the checksum is taken to tell them from a snapshot.
-/

namespace PallasDB

open WriteBack Transition

/-! ## One slot -/

/-- What the slots need of `encoding/json`. -/
structure MetaJson where
  marshal : KVMetaData → Bytes
  unmarshal : Bytes → Option KVMetaData
  unmarshal_marshal (data : KVMetaData) : unmarshal (marshal data) = some data
  unmarshal_nil : unmarshal [] = none

inductive MetaReadError where
  | absent
  | short (length : ℕ)
  | truncated (held claimed : ℕ)
  | badSum
  | badJson
  | sliceBounds
deriving DecidableEq, Repr

/-- `readMetaFile`. The end of the payload is computed in 32 bits; a slice that ends before it starts panics. -/
def readMetaFile (json : MetaJson) (file : Bytes) : Except MetaReadError KVMetaData :=
  if file.length = 0 then .error .absent
  else if file.length ≤ 8 then .error (.short file.length)
  else
    let sum := LittleEndian.decode (Entry.slice file 0 4)
    let size := LittleEndian.decode (Entry.slice file 4 8)
    if file.length < 8 + size then .error (.truncated (file.length - 8) size)
    else
      let stop := (8 + size) % 2 ^ 32
      if stop < 4 then .error .sliceBounds
      else if sum ≠ (crc32 (Entry.slice file 4 stop)).toNat then .error .badSum
      else if stop < 8 then .error .sliceBounds
      else
        match json.unmarshal (Entry.slice file 8 stop) with
        | none => .error .badJson
        | some data => .ok data

namespace MetaJson

variable (json : MetaJson)

/-- A snapshot behind its checksum and its size. -/
def bytes (data : KVMetaData) : Bytes :=
  let body := LittleEndian.encode 4 (json.marshal data).length ++ json.marshal data
  LittleEndian.encode 4 (crc32 body).toNat ++ body

/-- `writeMetaFile` writes from the start of the file and does not truncate it. -/
def writeMetaFile (file : Bytes) (data : KVMetaData) : Bytes := (Op.write 0 (json.bytes data)).apply file

/-- The snapshot a slot holds, if it can be read. -/
def readable (file : Bytes) : Option KVMetaData := (readMetaFile json file).toOption

/-- The bytes left by a write that was cut short read as nothing, as the snapshot that was written or as before. -/
def torn (old left : Bytes) (data : KVMetaData) : Bool :=
  match json.readable left with
  | none => true
  | some found => decide (found = data) || decide (json.readable old = some found)

variable {json}

theorem marshal_ne_nil (data : KVMetaData) : json.marshal data ≠ [] := by
  intro none
  have read := json.unmarshal_marshal data
  rw [none, json.unmarshal_nil] at read
  contradiction

theorem length_bytes (data : KVMetaData) : (json.bytes data).length = 8 + (json.marshal data).length := by
  simp only [bytes, List.length_append, LittleEndian.length_encode]
  omega

/-- A complete snapshot is read back, whatever an older and longer one left behind it. -/
theorem readMetaFile_bytes {data : KVMetaData} (small : (json.bytes data).length < 2 ^ 32) (rest : Bytes) :
    readMetaFile json (json.bytes data ++ rest) = .ok data := by
  have length := json.length_bytes data
  have payload := List.length_pos_iff.mpr (json.marshal_ne_nil data)
  let size := LittleEndian.encode 4 (json.marshal data).length
  let sum := LittleEndian.encode 4 (crc32 (size ++ json.marshal data)).toNat
  have sizeLength : size.length = 4 := LittleEndian.length_encode ..
  have sumLength : sum.length = 4 := LittleEndian.length_encode ..
  have whole : json.bytes data ++ rest = sum ++ (size ++ (json.marshal data ++ rest)) := by
    simp [bytes, size, sum]
  have sumSlice : Entry.slice (json.bytes data ++ rest) 0 4 = sum :=
    Entry.slice_append [] sum _ whole rfl (by simp [sumLength])
  have sizeSlice : Entry.slice (json.bytes data ++ rest) 4 8 = size :=
    Entry.slice_append sum size _ whole (by omega) (by omega)
  have sumValue : LittleEndian.decode sum = (crc32 (size ++ json.marshal data)).toNat :=
    LittleEndian.decode_encode (by simpa using (crc32 (size ++ json.marshal data)).toNat_lt)
  have sizeValue : LittleEndian.decode size = (json.marshal data).length := LittleEndian.decode_encode (by omega)
  have stop : (8 + (json.marshal data).length) % 2 ^ 32 = 8 + (json.marshal data).length := Nat.mod_eq_of_lt (by omega)
  have bodySlice : Entry.slice (json.bytes data ++ rest) 4 (8 + (json.marshal data).length) = size ++
    json.marshal data :=
    Entry.slice_append sum (size ++ json.marshal data) rest (by rw [whole]; simp) (by omega)
      (by rw [List.length_append]; omega)
  have dataSlice : Entry.slice (json.bytes data ++ rest) 8 (8 + (json.marshal data).length) = json.marshal data :=
    Entry.slice_append (sum ++ size) (json.marshal data) rest (by rw [whole]; simp)
      (by rw [List.length_append]; omega) (by rw [List.length_append]; omega)
  have total : (json.bytes data ++ rest).length = 8 + (json.marshal data).length + rest.length := by
    rw [List.length_append, length]
  simp only [readMetaFile, sumSlice, sizeSlice, sumValue, sizeValue, stop, bodySlice, dataSlice, json.unmarshal_marshal]
  rw [if_neg (by omega), if_neg (by omega), if_neg (by omega), if_neg (by omega), if_neg (by simp), if_neg (by omega)]

theorem writeMetaFile_eq (file : Bytes) (data : KVMetaData) :
    json.writeMetaFile file data = json.bytes data ++ file.drop (json.bytes data).length := by
  simp [writeMetaFile, Op.apply]

theorem readable_writeMetaFile {data : KVMetaData} (small : (json.bytes data).length < 2 ^ 32) (file : Bytes) :
    json.readable (json.writeMetaFile file data) = some data := by
  rw [readable, writeMetaFile_eq, readMetaFile_bytes small]
  rfl

/-- A file shorter than 4 GiB is read or refused. -/
theorem readMetaFile_returns {file : Bytes} (small : file.length < 2 ^ 32) :
    readMetaFile json file ≠ .error .sliceBounds := by
  intro panics
  unfold readMetaFile at panics
  split at panics
  · cases panics
  split at panics
  · cases panics
  dsimp only at panics
  split at panics
  · cases panics
  · next room =>
    rw [Nat.mod_eq_of_lt (by omega), if_neg (by omega)] at panics
    split at panics
    · cases panics
    rw [if_neg (by omega)] at panics
    split at panics <;> cases panics

end MetaJson

/-! ## The two slots -/

structure KVMetaItem where
  file : Bytes
  data : KVMetaData
deriving DecidableEq, Repr

structure KVMetaFiles where
  slots : Fin 2 → KVMetaItem

inductive MetaOpenError where
  | unreadable (leftovers : ℕ) (first second : MetaReadError)
  | panics
deriving DecidableEq, Repr

namespace KVMetaFiles

def current (metas : KVMetaFiles) : Fin 2 :=
  if (metas.slots 1).data.version < (metas.slots 0).data.version then 0 else 1

def get (metas : KVMetaFiles) : KVMetaData := (metas.slots metas.current).data

/-- The slot that `Set` writes. -/
def spare (metas : KVMetaFiles) : Fin 2 := 1 - metas.current

def setSpare (metas : KVMetaFiles) (item : KVMetaItem) : KVMetaFiles := ⟨Function.update metas.slots metas.spare item⟩

variable (json : MetaJson)

/-- `KVMetaStore.Set` when nothing fails. -/
def set (metas : KVMetaFiles) (data : KVMetaData) : KVMetaFiles :=
  metas.setSpare ⟨json.writeMetaFile (metas.slots metas.spare).file data, data⟩

/-- A `Set` whose write or flush fails leaves some bytes, and what is in memory as it was. -/
def tear (metas : KVMetaFiles) (left : Bytes) : KVMetaFiles :=
  metas.setSpare { metas.slots metas.spare with file := left }

def reload (metas : KVMetaFiles) : KVMetaFiles :=
  ⟨fun i => { metas.slots i with data := (json.readable (metas.slots i).file).getD ⟨0, []⟩ }⟩

/-- `KVMetaStore.Open`; the directory holds some table files. -/
def openFiles (leftovers : ℕ) (metas : KVMetaFiles) : Except MetaOpenError KVMetaFiles :=
  match readMetaFile json (metas.slots 0).file, readMetaFile json (metas.slots 1).file with
  | .error .sliceBounds, _ => .error .panics
  | _, .error .sliceBounds => .error .panics
  | .error first, .error second =>
      if leftovers = 0 then .ok (metas.reload json) else .error (.unreadable leftovers first second)
  | _, _ => .ok (metas.reload json)

/-- Two empty files. -/
def empty : KVMetaFiles := ⟨fun _ => ⟨[], ⟨0, []⟩⟩⟩

variable {json} {metas : KVMetaFiles}

theorem spare_ne_current : metas.spare ≠ metas.current := by
  rw [spare]
  generalize metas.current = i
  revert i
  decide

theorem eq_current_or_spare (metas : KVMetaFiles) (i : Fin 2) : i = metas.current ∨ i = metas.spare := by
  rw [spare]
  generalize metas.current = slot
  revert i slot
  decide

theorem current_cases (metas : KVMetaFiles) :
    (metas.current = 0 ∧ metas.spare = 1 ∧ (metas.slots 1).data.version < (metas.slots 0).data.version) ∨
      (metas.current = 1 ∧ metas.spare = 0 ∧ (metas.slots 0).data.version ≤ (metas.slots 1).data.version) := by
  by_cases first : (metas.slots 1).data.version < (metas.slots 0).data.version
  · have zero : metas.current = 0 := if_pos first
    exact .inl ⟨zero, by rw [spare, zero]; rfl, first⟩
  · have one : metas.current = 1 := if_neg first
    exact .inr ⟨one, by rw [spare, one]; rfl, Nat.not_lt.mp first⟩

/-- The current slot has the greater version. -/
theorem spare_le (metas : KVMetaFiles) : (metas.slots metas.spare).data.version ≤ metas.get.version := by
  obtain ⟨here, other, above⟩ | ⟨here, other, above⟩ := metas.current_cases
  · rw [get, here, other]
    exact Nat.le_of_lt above
  · rwa [get, here, other]

/-- A slot stays current when its data stay and the other slot does not overtake it. -/
theorem current_of_le {next : KVMetaFiles} (same : (next.slots metas.current).data = metas.get)
    (below : (next.slots metas.spare).data.version ≤ (metas.slots metas.spare).data.version) :
    next.current = metas.current ∧ next.spare = metas.spare ∧ next.get = metas.get := by
  have stays : next.current = metas.current := by
    obtain ⟨here, other, above⟩ | ⟨here, other, above⟩ := metas.current_cases
    · rw [get, here] at same
      rw [other] at below
      rw [here]
      exact if_pos (by rw [same]; omega)
    · rw [get, here] at same
      rw [other] at below
      rw [here]
      exact if_neg (by rw [same]; omega)
  exact ⟨stays, by rw [spare, stays, spare], by rw [get, stays, same]⟩

/-- The other slot becomes current when it overtakes. -/
theorem current_of_lt {next : KVMetaFiles} (same : (next.slots metas.current).data = metas.get)
    (above : metas.get.version < (next.slots metas.spare).data.version) :
    next.current = metas.spare ∧ next.spare = metas.current ∧ next.get = (next.slots metas.spare).data := by
  obtain ⟨here, other, -⟩ | ⟨here, other, -⟩ := metas.current_cases
  · rw [other] at above ⊢
    rw [here] at same ⊢
    have moves : next.current = 1 := if_neg (by rw [same]; omega)
    exact ⟨moves, by rw [spare, moves]; rfl, by rw [get, moves]⟩
  · rw [other] at above ⊢
    rw [here] at same ⊢
    have moves : next.current = 0 := if_pos (by rw [same]; omega)
    exact ⟨moves, by rw [spare, moves]; rfl, by rw [get, moves]⟩

theorem setSpare_current (item : KVMetaItem) : (metas.setSpare item).slots metas.current = metas.slots metas.current :=
  Function.update_of_ne spare_ne_current.symm ..

theorem setSpare_spare (item : KVMetaItem) : (metas.setSpare item).slots metas.spare = item := Function.update_self ..

theorem slots_set (json : MetaJson) (metas : KVMetaFiles) (data : KVMetaData) :
    (metas.set json data).slots metas.current = metas.slots metas.current ∧
      (metas.set json data).slots metas.spare = ⟨json.writeMetaFile (metas.slots metas.spare).file data, data⟩ :=
  ⟨setSpare_current _, setSpare_spare _⟩

theorem set_current {data : KVMetaData} (newer : metas.get.version < data.version) :
    (metas.set json data).current = metas.spare ∧ (metas.set json data).spare = metas.current ∧
      (metas.set json data).get = data := by
  obtain ⟨kept, wrote⟩ := metas.slots_set json data
  have overtakes : metas.get.version < ((metas.set json data).slots metas.spare).data.version := by rwa [wrote]
  obtain ⟨moves, back, shows⟩ := current_of_lt (congrArg KVMetaItem.data kept) overtakes
  exact ⟨moves, back, by rw [shows, wrote]⟩

theorem slots_tear (metas : KVMetaFiles) (left : Bytes) :
    (metas.tear left).slots metas.current = metas.slots metas.current ∧
      (metas.tear left).slots metas.spare = { metas.slots metas.spare with file := left } :=
  ⟨setSpare_current _, setSpare_spare _⟩

theorem tear_current (metas : KVMetaFiles) (left : Bytes) :
    (metas.tear left).current = metas.current ∧ (metas.tear left).spare = metas.spare ∧
      (metas.tear left).get = metas.get := by
  obtain ⟨kept, torn⟩ := metas.slots_tear left
  exact current_of_le (congrArg KVMetaItem.data kept) (by rw [torn])

/-- The slots as the store on the disk knows them. -/
def abstract (json : MetaJson) (metas : KVMetaFiles) : KVMetaStore :=
  ⟨⟨json.readable (metas.slots 0).file, none⟩, ⟨json.readable (metas.slots 1).file, none⟩⟩

theorem current_reload (json : MetaJson) (metas : KVMetaFiles) :
    (metas.reload json).current = if (metas.abstract json).current then 0 else 1 := by
  rw [current, KVMetaStore.current]
  simp only [decide_eq_true_eq]
  rfl

theorem get_reload (json : MetaJson) (metas : KVMetaFiles) : (metas.reload json).get = (metas.abstract json).get := by
  rw [get, current_reload, KVMetaStore.get]
  split <;> rfl

/-- A `Set` that succeeds is a write of the store on the disk that is flushed. -/
theorem abstract_set {data : KVMetaData} (loaded : metas.reload json = metas)
    (small : (json.bytes data).length < 2 ^ 32) :
    (metas.set json data).abstract json = ((metas.abstract json).write data).sync := by
  have place := current_reload json metas
  rw [loaded] at place
  have read := MetaJson.readable_writeMetaFile small (metas.slots metas.spare).file
  obtain ⟨kept, wrote⟩ := metas.slots_set json data
  have synced : ((metas.abstract json).write data).sync = if (metas.abstract json).current
      then ⟨(metas.abstract json).slot0, some data, none⟩ else ⟨⟨some data, none⟩, (metas.abstract json).slot1⟩ := by
    rw [KVMetaStore.write]
    split
    · next first => exact if_pos first
    · next second => exact if_neg second
  cases first : (metas.abstract json).current with
  | true =>
    have here : metas.current = 0 := by simpa [first] using place
    have other : metas.spare = 1 := by rw [spare, here]; rfl
    rw [here] at kept
    rw [other] at wrote read
    rw [synced, if_pos first, abstract, kept, wrote, read]
    rfl
  | false =>
    have here : metas.current = 1 := by simpa [first] using place
    have other : metas.spare = 0 := by rw [spare, here]; rfl
    rw [here] at kept
    rw [other] at wrote read
    rw [synced, first, abstract, kept, wrote, read]
    rfl

theorem openFiles_ok {leftovers : ℕ} {next : KVMetaFiles} (opened : metas.openFiles json leftovers = .ok next) :
    next = metas.reload json := by
  unfold openFiles at opened
  split at opened
  · cases opened
  · cases opened
  · split at opened
    · exact (Except.ok.inj opened).symm
    · cases opened
  · exact (Except.ok.inj opened).symm

theorem openFiles_returns (small : ∀ i, (metas.slots i).file.length < 2 ^ 32) :
    metas.openFiles json 0 = .ok (metas.reload json) := by
  have first := @MetaJson.readMetaFile_returns json _ (small 0)
  have second := @MetaJson.readMetaFile_returns json _ (small 1)
  unfold openFiles
  split
  · next panics => exact absurd panics first
  · next panics _ => exact absurd panics second
  · rfl
  · rfl

end KVMetaFiles

/-! ## Runs -/

/-- The slots with the version of the last call of `Set`, and what was given to the calls that failed since the
last one that succeeded or since the slots were opened. -/
structure MetaRun where
  metas : KVMetaFiles
  latest : ℕ
  failed : List KVMetaData

inductive MetaEvent where
  | set (data : KVMetaData)
  | fail (data : KVMetaData) (left : Bytes)
  | crash (data : KVMetaData) (left : Bytes) (leftovers : ℕ)
  | reopen (leftovers : ℕ)

namespace MetaRun

variable (json : MetaJson)

def fresh : MetaRun := ⟨.empty, 0, []⟩

def fail (run : MetaRun) (data : KVMetaData) (left : Bytes) : MetaRun :=
  ⟨run.metas.tear left, data.version, data :: run.failed⟩

def reopen (run : MetaRun) (leftovers : ℕ) : Option MetaRun :=
  match run.metas.openFiles json leftovers with
  | .ok metas => some ⟨metas, run.latest, []⟩
  | .error _ => none

def step (run : MetaRun) : MetaEvent → Option MetaRun
  | .set data => some ⟨run.metas.set json data, data.version, []⟩
  | .fail data left => some (run.fail data left)
  | .crash data left leftovers => (run.fail data left).reopen json leftovers
  | .reopen leftovers => run.reopen json leftovers

/-- Versions increase from one on, the slots stay below 4 GiB, and the checksum does its work. -/
def lawful (run : MetaRun) : MetaEvent → Bool
  | .set data => decide (run.latest < data.version) && decide ((json.bytes data).length < 2 ^ 32)
  | .fail data left | .crash data left _ => decide (run.latest < data.version) && decide (left.length < 2 ^ 32) &&
      json.torn (run.metas.slots run.metas.spare).file left data
  | .reopen _ => true

/-- What the slots of a run hold. -/
structure Inv (run : MetaRun) : Prop where
  current : json.readable (run.metas.slots run.metas.current).file = some run.metas.get ∨
    json.readable (run.metas.slots run.metas.current).file = none ∧ run.metas.get = ⟨0, []⟩
  spare : ∀ found, json.readable (run.metas.slots run.metas.spare).file = some found →
    found = (run.metas.slots run.metas.spare).data ∨ found ∈ run.failed
  newer : ∀ data ∈ run.failed, run.metas.get.version < data.version ∧ data.version ≤ run.latest
  latest : run.metas.get.version ≤ run.latest
  positive : ∀ i found, json.readable (run.metas.slots i).file = some found → 0 < found.version
  small : ∀ i, (run.metas.slots i).file.length < 2 ^ 32

variable {json} {run target : MetaRun} {data : KVMetaData} {left : Bytes}

theorem inv_fresh : Inv json fresh where
  current := .inr ⟨rfl, rfl⟩
  spare _ found := by cases found
  newer := by simp [fresh]
  latest := Nat.le_refl 0
  positive _ _ found := by cases found
  small _ := by simp [fresh, KVMetaFiles.empty]

/-- A fact about both slots. -/
private theorem both (metas : KVMetaFiles) {holds : Fin 2 → Prop} (current : holds metas.current)
    (spare : holds metas.spare) (i : Fin 2) : holds i := by
  rcases metas.eq_current_or_spare i with rfl | rfl
  · exact current
  · exact spare

/-- A `Set` that succeeds makes its slot current. -/
theorem Inv.set (inv : Inv json run) (newer : run.latest < data.version) (small : (json.bytes data).length < 2 ^ 32) :
    Inv json ⟨run.metas.set json data, data.version, []⟩ ∧ (run.metas.set json data).get = data := by
  obtain ⟨kept, wrote⟩ := run.metas.slots_set json data
  obtain ⟨moves, back, shows⟩ := @KVMetaFiles.set_current json _ _ (Nat.lt_of_le_of_lt inv.latest newer)
  have read := MetaJson.readable_writeMetaFile small (run.metas.slots run.metas.spare).file
  refine ⟨⟨.inl ?_, ?_, by simp, ?_, ?_, ?_⟩, shows⟩
  · rw [moves, shows, wrote, read]
  · intro found
    rw [back, kept]
    intro old
    rcases inv.current with held | ⟨none, -⟩
    · rw [held] at old
      exact .inl (Option.some.inj old).symm
    · rw [none] at old
      contradiction
  · rw [shows]
  · refine both run.metas ?_ ?_
    · rw [kept]
      exact inv.positive _
    · rw [wrote, read]
      rintro found ⟨⟩
      exact Nat.zero_lt_of_lt newer
  · refine both run.metas ?_ ?_
    · rw [kept]
      exact inv.small _
    · rw [wrote, MetaJson.writeMetaFile_eq, List.length_append, List.length_drop]
      have old := inv.small run.metas.spare
      omega

/-- A `Set` that fails changes nothing that is shown. -/
theorem Inv.fail (inv : Inv json run) (newer : run.latest < data.version) (small : left.length < 2 ^ 32)
    (torn : json.torn (run.metas.slots run.metas.spare).file left data = true) : Inv json (run.fail data left) := by
  obtain ⟨kept, wrote⟩ := run.metas.slots_tear left
  obtain ⟨stays, other, shows⟩ := run.metas.tear_current left
  have reads : ∀ found, json.readable left = some found →
      found = data ∨ json.readable (run.metas.slots run.metas.spare).file = some found := by
    intro found read
    simpa [MetaJson.torn, read] using torn
  refine ⟨?_, ?_, ?_, ?_, ?_, ?_⟩
  · rw [MetaRun.fail, stays, kept, shows]
    exact inv.current
  · intro found
    rw [MetaRun.fail, other, wrote]
    intro read
    rcases reads found read with rfl | before
    · exact .inr (List.mem_cons_self ..)
    · exact (inv.spare found before).imp id (List.mem_cons_of_mem _)
  · rw [MetaRun.fail, shows]
    refine List.forall_mem_cons.mpr ⟨⟨Nat.lt_of_le_of_lt inv.latest newer, Nat.le_refl _⟩, fun other member => ?_⟩
    obtain ⟨above, bound⟩ := inv.newer other member
    exact ⟨above, Nat.le_of_lt (Nat.lt_of_le_of_lt bound newer)⟩
  · rw [MetaRun.fail, shows]
    exact Nat.le_of_lt (Nat.lt_of_le_of_lt inv.latest newer)
  · refine both run.metas ?_ ?_
    · rw [MetaRun.fail, kept]
      exact inv.positive _
    · rw [MetaRun.fail, wrote]
      intro found read
      rcases reads found read with rfl | before
      · exact Nat.zero_lt_of_lt newer
      · exact inv.positive _ found before
  · refine both run.metas ?_ ?_
    · rw [MetaRun.fail, kept]
      exact inv.small _
    · rw [MetaRun.fail, wrote]
      exact small

/-- Opening the slots shows what was shown before or what a failed `Set` left. -/
theorem Inv.reload (inv : Inv json run) : Inv json ⟨run.metas.reload json, run.latest, []⟩ ∧
    ((run.metas.reload json).get = run.metas.get ∨ (run.metas.reload json).get ∈ run.failed) := by
  have same : ((run.metas.reload json).slots run.metas.current).data = run.metas.get := by
    rcases inv.current with held | ⟨none, zero⟩
    · simp [KVMetaFiles.reload, held]
    · simp [KVMetaFiles.reload, none, zero]
  have shows : (run.metas.reload json).get = run.metas.get ∨ (run.metas.reload json).get ∈ run.failed := by
    cases read : json.readable (run.metas.slots run.metas.spare).file with
    | none => exact .inl (KVMetaFiles.current_of_le same (by simp [KVMetaFiles.reload, read])).2.2
    | some found =>
      have data : ((run.metas.reload json).slots run.metas.spare).data = found := by simp [KVMetaFiles.reload, read]
      rcases inv.spare found read with rfl | late
      · exact .inl (KVMetaFiles.current_of_le same (by rw [data])).2.2
      · right
        rw [(KVMetaFiles.current_of_lt same (by rw [data]; exact (inv.newer found late).1)).2.2, data]
        exact late
  refine ⟨⟨?_, fun found read => .inl ?_, by simp, ?_, inv.positive, inv.small⟩, shows⟩
  · have data : (run.metas.reload json).get =
        (json.readable ((run.metas.reload json).slots (run.metas.reload json).current).file).getD ⟨0, []⟩ := rfl
    rw [data]
    cases json.readable ((run.metas.reload json).slots (run.metas.reload json).current).file with
    | none => exact .inr ⟨rfl, rfl⟩
    | some found => exact .inl rfl
  · have data : ((run.metas.reload json).slots (run.metas.reload json).spare).data =
        (json.readable ((run.metas.reload json).slots (run.metas.reload json).spare).file).getD ⟨0, []⟩ := rfl
    rw [data, read]
    rfl
  · rcases shows with old | late
    · rw [old]
      exact inv.latest
    · exact (inv.newer _ late).2

theorem reopen_cases {leftovers : ℕ} (reopened : run.reopen json leftovers = some target) :
    target = ⟨run.metas.reload json, run.latest, []⟩ := by
  unfold reopen at reopened
  split at reopened
  · next metas opened =>
    rw [KVMetaFiles.openFiles_ok opened] at reopened
    exact (Option.some.inj reopened).symm
  · contradiction

end MetaRun

/-- What the calls show before and after an event. -/
def MetaEvent.Shows (before after : MetaRun) : MetaEvent → Prop
  | .set data => after.metas.get = data
  | .fail _ _ => after.metas.get = before.metas.get
  | .crash data _ _ => after.metas.get = before.metas.get ∨ after.metas.get = data ∨ after.metas.get ∈ before.failed
  | .reopen _ => after.metas.get = before.metas.get ∨ after.metas.get ∈ before.failed

/-- The table files in the directory when the slots are opened. -/
def MetaEvent.leftovers : MetaEvent → ℕ
  | .set _ | .fail _ _ => 0
  | .crash _ _ leftovers | .reopen leftovers => leftovers

namespace MetaRun

variable {json : MetaJson} {run target : MetaRun}

theorem Inv.step {event : MetaEvent} (inv : Inv json run) (lawful : run.lawful json event = true)
    (taken : run.step json event = some target) : Inv json target ∧ event.Shows run target := by
  cases event with
  | set data =>
    simp only [MetaRun.lawful, Bool.and_eq_true, decide_eq_true_eq] at lawful
    cases taken
    exact inv.set lawful.1 lawful.2
  | fail data left =>
    simp only [MetaRun.lawful, Bool.and_eq_true, decide_eq_true_eq] at lawful
    cases taken
    exact ⟨inv.fail lawful.1.1 lawful.1.2 lawful.2, (run.metas.tear_current left).2.2⟩
  | crash data left leftovers =>
    simp only [MetaRun.lawful, Bool.and_eq_true, decide_eq_true_eq] at lawful
    rw [reopen_cases taken]
    obtain ⟨reloaded, shown⟩ := (inv.fail lawful.1.1 lawful.1.2 lawful.2).reload
    rw [MetaRun.fail, (run.metas.tear_current left).2.2, List.mem_cons] at shown
    exact ⟨reloaded, shown⟩
  | reopen leftovers =>
    rw [reopen_cases taken]
    exact inv.reload

theorem Inv.reopens (inv : Inv json run) : ∃ target, run.reopen json 0 = some target := by
  rw [reopen, KVMetaFiles.openFiles_returns inv.small]
  exact ⟨_, rfl⟩

theorem Inv.enabled {event : MetaEvent} (inv : Inv json run) (lawful : run.lawful json event = true)
    (empty : event.leftovers = 0) : ∃ target, run.step json event = some target := by
  cases event with
  | set data => exact ⟨_, rfl⟩
  | fail data left => exact ⟨_, rfl⟩
  | crash data left leftovers =>
    simp only [MetaRun.lawful, Bool.and_eq_true, decide_eq_true_eq] at lawful
    cases empty
    exact (inv.fail lawful.1.1 lawful.1.2 lawful.2).reopens
  | reopen leftovers =>
    cases empty
    exact inv.reopens

/-- The slot that is written holds no snapshot, or what a failed `Set` left, or the other slot holds one. -/
theorem Inv.keeps_readable (inv : Inv json run) {found : KVMetaData}
    (read : json.readable (run.metas.slots run.metas.spare).file = some found) :
    found ∈ run.failed ∨ json.readable (run.metas.slots run.metas.current).file = some run.metas.get := by
  rcases inv.spare found read with rfl | late
  · rcases inv.current with held | ⟨-, zero⟩
    · exact .inr held
    · have below := run.metas.spare_le
      rw [zero] at below
      exact absurd (inv.positive _ _ read) (Nat.not_lt.mpr below)
  · exact .inl late

/-- In every run the slots show the data of the last `Set` that succeeded or that a crash found complete, and
the slot that holds the only snapshot is not written. -/
theorem double_buffered {events : List MetaEvent} (ran : run? (step json) fresh events = some run)
    (meets : Meets (step json) (fun run event => run.lawful json event = true) fresh events) :
    (∀ event, run.lawful json event = true → event.leftovers = 0 →
      ∃ target, run.step json event = some target) ∧
    (∀ event target, run.lawful json event = true → run.step json event = some target → event.Shows run target) ∧
    ∀ found, json.readable (run.metas.slots run.metas.spare).file = some found →
      found ∈ run.failed ∨ json.readable (run.metas.slots run.metas.current).file = some run.metas.get := by
  have inv : Inv json run := run?_invariant_of_meets (Inv json) (fun inv lawful taken => (inv.step lawful taken).1)
    inv_fresh meets ran
  exact ⟨fun _ => inv.enabled, fun _ _ lawful taken => (inv.step lawful taken).2, fun _ => inv.keeps_readable⟩

/-! ### The text of the metadata

`encoding/json` writes the version and then the names of the tables. The numbers of that text are the version of
the snapshot and those of its tables, so that it can be read back. -/

def decimal (number : ℕ) : Bytes := (Nat.toDigits 10 number).map fun digit => UInt8.ofNat digit.toNat

def asChar (byte : UInt8) : Char := Char.ofNat byte.toNat

def numbersIn (text : Bytes) : List ℕ :=
  ((text.splitOnP fun byte => !(asChar byte).isDigit).filter (· ≠ [])).map fun run =>
    Nat.ofDigitChars 10 (run.map asChar) 0

private theorem asChar_digit {digit : Char} (isDigit : digit.isDigit = true) :
    asChar (UInt8.ofNat digit.toNat) = digit := by
  have small : digit.toNat < 256 := by
    simp only [Char.isDigit, Bool.and_eq_true, decide_eq_true_iff] at isDigit
    exact Nat.lt_of_le_of_lt (UInt32.le_iff_toNat_le.mp isDigit.2) (by decide)
  rw [asChar, UInt8.toNat_ofNat_of_lt' small, Char.ofNat_toNat]

private theorem numbersIn_plain {plain : Bytes} (none : ∀ byte ∈ plain, (asChar byte).isDigit = false) (rest : Bytes) :
    numbersIn (plain ++ rest) = numbersIn rest := by
  induction plain with
  | nil => rfl
  | cons byte plain ih =>
    rw [List.forall_mem_cons] at none
    rw [← ih none.2]
    simp [numbersIn, List.splitOnP_cons_eq_if_modifyHead, none.1]

private theorem numbersIn_decimal (number : ℕ) {byte : UInt8} (plain : (asChar byte).isDigit = false) (rest : Bytes) :
    numbersIn (decimal number ++ byte :: rest) = number :: numbersIn (byte :: rest) := by
  have isDigit (digit : Char) (member : digit ∈ Nat.toDigits 10 number) : digit.isDigit = true :=
    Nat.isDigit_of_mem_toDigits (by decide) (by decide) member
  have digits (digit : Char) (member : digit ∈ Nat.toDigits 10 number) : asChar (UInt8.ofNat digit.toNat) = digit :=
    asChar_digit (isDigit digit member)
  have same : (decimal number).map asChar = Nat.toDigits 10 number := by
    rw [decimal, List.map_map]
    exact (List.map_congr_left digits).trans (List.map_id _)
  have whole : (decimal number).splitOnP (fun byte => !(asChar byte).isDigit) = [decimal number] := by
    refine List.splitOnP_eq_singleton fun byte member => ?_
    obtain ⟨digit, among, rfl⟩ := List.mem_map.mp member
    simp [digits digit among, isDigit digit among]
  have some : decimal number ≠ [] := by simp [decimal, Nat.toDigits_ne_nil]
  have split := List.splitOnP_append_cons (p := fun byte => !(asChar byte).isDigit) (decimal number) rest
    (show (!(asChar byte).isDigit) = true by simp [plain])
  rw [numbersIn, numbersIn, split, whole, List.splitOnP_cons_eq_if_modifyHead]
  simp [some, same, plain, Nat.ofDigitChars_toDigits]

/-- A text that ends a number and holds none. -/
def Plain (text : Bytes) : Prop := text ≠ [] ∧ ∀ byte ∈ text, (asChar byte).isDigit = false

private theorem numbersIn_pieces {pieces : List (ℕ × Bytes)} (plain : ∀ piece ∈ pieces, Plain piece.2) :
    numbersIn (pieces.flatMap fun piece => decimal piece.1 ++ piece.2) = pieces.map Prod.fst := by
  induction pieces with
  | nil => rfl
  | cons piece rest ih =>
    obtain ⟨number, text⟩ := piece
    obtain ⟨⟨filled, between⟩, others⟩ := List.forall_mem_cons.mp plain
    obtain ⟨byte, more, rfl⟩ := List.exists_cons_of_ne_nil filled
    have skipped := numbersIn_plain between (rest.flatMap fun piece => decimal piece.1 ++ piece.2)
    rw [List.flatMap_cons, List.append_assoc, List.cons_append, numbersIn_decimal number (between byte (by simp)),
      ← List.cons_append, skipped, ih others, List.map_cons]

/-- The versions in the table names, each with the text that follows it. -/
def tablePieces : List ℕ → List (ℕ × Bytes)
  | [] => []
  | [last] => [(last, ascii "\"]\x7d")]
  | version :: rest => (version, ascii "\",\"sstable_") :: tablePieces rest

private theorem tablePieces_plain (versions : List ℕ) :
    (tablePieces versions).map Prod.fst = versions ∧ ∀ piece ∈ tablePieces versions, Plain piece.2 := by
  fun_induction tablePieces versions with
  | case1 => simp
  | case2 last => exact ⟨rfl, by simp only [List.forall_mem_singleton, Plain]; decide +kernel⟩
  | case3 version rest some ih =>
    have between : Plain (ascii "\",\"sstable_") := by unfold Plain; decide +kernel
    exact ⟨by rw [List.map_cons, ih.1], List.forall_mem_cons.mpr ⟨between, ih.2⟩⟩

def metaPieces (data : KVMetaData) : List (ℕ × Bytes) :=
  -- A nil slice is written as null.
  if data.sstables = [] then [(data.version, ascii ",\"SSTables\":null\x7d")]
  else (data.version, ascii ",\"SSTables\":[\"sstable_") :: tablePieces data.sstables

def metaText (data : KVMetaData) : Bytes :=
  ascii "\x7b\"Version\":" ++ (metaPieces data).flatMap fun piece => decimal piece.1 ++ piece.2

example : metaText ⟨12, [3, 1]⟩ = ascii "\x7b\"Version\":12,\"SSTables\":[\"sstable_3\",\"sstable_1\"]\x7d" := by
  decide +kernel

private theorem numbersIn_metaText (data : KVMetaData) : numbersIn (metaText data) = data.version :: data.sstables := by
  have front : ∀ byte ∈ ascii "\x7b\"Version\":", (asChar byte).isDigit = false := by decide +kernel
  have empty : Plain (ascii ",\"SSTables\":null\x7d") := by unfold Plain; decide +kernel
  have tables : Plain (ascii ",\"SSTables\":[\"sstable_") := by unfold Plain; decide +kernel
  obtain ⟨versions, plain⟩ := tablePieces_plain data.sstables
  rw [metaText, numbersIn_plain front, metaPieces]
  split
  · next none => rw [numbersIn_pieces (by simpa using empty), none]; rfl
  · rw [numbersIn_pieces (List.forall_mem_cons.mpr ⟨tables, plain⟩), List.map_cons, versions]

/-- The codec that takes the texts of snapshots and no other. -/
def metaJson : MetaJson where
  marshal := metaText
  unmarshal bytes :=
    match numbersIn bytes with
    | [] => none
    | version :: sstables => if metaText ⟨version, sstables⟩ = bytes then some ⟨version, sstables⟩ else none
  unmarshal_marshal data := by
    rw [numbersIn_metaText]
    exact if_pos rfl
  unmarshal_nil := rfl

/-! ### Runs with that codec -/

/-- Both slots are filled: version 3 is current, and the older version 2 in the spare slot is longer. -/
def filledSlots : KVMetaFiles :=
  ((KVMetaFiles.empty.set metaJson ⟨1, [1]⟩).set metaJson ⟨2, [2, 1]⟩).set metaJson ⟨3, [3]⟩

theorem abstract_set_longer :
    (metaJson.bytes ⟨4, [4]⟩).length < (filledSlots.slots filledSlots.spare).file.length ∧
    metaJson.readable (filledSlots.slots filledSlots.spare).file = some ⟨2, [2, 1]⟩ ∧
    (filledSlots.set metaJson ⟨4, [4]⟩).abstract metaJson =
      ((filledSlots.abstract metaJson).write ⟨4, [4]⟩).sync := by
  have same : ∀ i, (filledSlots.reload metaJson).slots i = filledSlots.slots i := by decide +kernel
  have loaded : filledSlots.reload metaJson = filledSlots := congrArg KVMetaFiles.mk (funext same)
  exact ⟨by decide +kernel, by decide +kernel, KVMetaFiles.abstract_set loaded (by decide +kernel)⟩

/-- A snapshot is followed by a shorter one, by a `Set` that fails and by one that a crash cuts short. -/
def shrinking : List MetaEvent :=
  [.set ⟨1, [1]⟩, .set ⟨2, [2, 1]⟩, .set ⟨3, []⟩, .fail ⟨4, [4]⟩ [7], .crash ⟨5, [5]⟩ [9, 9] 1]

theorem double_buffered_shrinking :
    (run? (step metaJson) fresh shrinking).isSome ∧ ∀ run, run? (step metaJson) fresh shrinking = some run →
      (∀ event, run.lawful metaJson event = true → event.leftovers = 0 →
        ∃ target, run.step metaJson event = some target) ∧
      (∀ event target, run.lawful metaJson event = true → run.step metaJson event = some target →
        event.Shows run target) ∧ ∀ found, metaJson.readable (run.metas.slots run.metas.spare).file = some found →
        found ∈ run.failed ∨ metaJson.readable (run.metas.slots run.metas.current).file = some run.metas.get :=
  ⟨by decide +kernel, fun _ ran => double_buffered ran (by decide +kernel)⟩

/-- One crash leaves a complete snapshot of a `Set` that never returned, the next one leaves rubbish. -/
def twoCrashes : List MetaEvent :=
  [.set ⟨1, [1]⟩, .crash ⟨2, [2, 1]⟩ (metaJson.bytes ⟨2, [2, 1]⟩) 1, .crash ⟨3, [3]⟩ [9, 9] 1]

/-- Then the slots show neither the last `Set` that returned nor the one that was cut short. -/
theorem twoCrashes_shows : Meets (step metaJson) (fun run event => run.lawful metaJson event = true) fresh twoCrashes ∧
    (run? (step metaJson) fresh twoCrashes).map (fun run => run.metas.get) = some ⟨2, [2, 1]⟩ := by
  constructor <;> decide +kernel

end MetaRun

end PallasDB
