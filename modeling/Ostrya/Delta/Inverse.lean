/-
**Applying a generated part gives back the objects it was made of.**

A part grows while objects are added: tables, data source, stream and object list are only ever extended, so
what an operation names at the time it is pushed is what the applier finds in the finished part.

* `addObject_plays`: the operations of one object, replayed, write exactly the object;
* `addObjects_play`: those of a list of objects, by induction on the list;
* `generate_apply`: a written part decodes, and its application writes every object of the list in order.
-/

import Ostrya.Delta.Replay

namespace Ostrya.Delta

open ByteFormat Gvariant Ostrya.Core

/-! ### A part grows -/

/-- A stage of a part: what the stage holds keeps its place. -/
structure StageOf (part whole : Part) : Prop where
  modes : part.modes.entries <+: whole.modes.entries
  xattrs : part.xattrs.entries <+: whole.xattrs.entries
  blob : part.blob <+: whole.blob
  ops : part.ops <+: whole.ops
  objects : part.objects <+: whole.objects

namespace StageOf

variable {part next whole : Part}

theorem refl (part : Part) : StageOf part part :=
  ⟨List.prefix_rfl, List.prefix_rfl, List.prefix_rfl, List.prefix_rfl, List.prefix_rfl⟩

theorem trans (first : StageOf part next) (second : StageOf next whole) : StageOf part whole :=
  ⟨first.modes.trans second.modes, first.xattrs.trans second.xattrs, first.blob.trans second.blob,
    first.ops.trans second.ops, first.objects.trans second.objects⟩

theorem pushOp : StageOf part (part.pushOp opcode operands) :=
  { refl part with ops := List.prefix_append _ _ }

theorem finishObject : StageOf part (part.finishObject objtype checksum payload) :=
  { refl part with objects := List.prefix_append _ _ }

theorem append : StageOf part (part.append bytes).2 :=
  { refl part with blob := List.prefix_append _ _ }

theorem modeIndex : StageOf part (part.modeIndex uid gid mode).2 :=
  { refl part with modes := part.modes.entries_prefix_intern _ }

theorem xattrIndex : StageOf part (part.xattrIndex attrs).2 :=
  { refl part with xattrs := part.xattrs.entries_prefix_intern _ }

theorem addRun : StageOf part (addRun target sourceOffset part run) := by
  cases run with
  | copy off length => exact (pushOp.trans pushOp).trans pushOp
  | payload off length => exact append.trans pushOp

theorem addRunList {runs : List Rollsum.Run} :
    StageOf part (runs.foldl (Delta.addRun target sourceOffset) part) := by
  induction runs generalizing part with
  | nil => exact refl part
  | cons run runs ih => exact addRun.trans ih

theorem addSplice : StageOf part (addSplice part item first second bytes) :=
  (append.trans pushOp).trans finishObject

theorem addMetadata : StageOf part (addMetadata part item bytes) :=
  (append.trans pushOp).trans finishObject

theorem addRuns : StageOf part (addRuns part item first second source target runs) :=
  (((pushOp.trans append).trans addRunList).trans pushOp).trans finishObject

theorem addPatch : StageOf part (addPatch part item first second source stream outputSize) :=
  (((((pushOp.trans append).trans append).trans pushOp).trans pushOp).trans (pushOp.trans pushOp)).trans finishObject

end StageOf

theorem addRunList_objects (target : Bytes) (sourceOffset : Nat) (part : Part) (runs : List Rollsum.Run) :
    (runs.foldl (addRun target sourceOffset) part).objects = part.objects := by
  induction runs generalizing part with
  | nil => rfl
  | cons run runs ih =>
    rw [List.foldl_cons, ih]
    cases run <;> rfl

/-- An entry keeps its place in a longer list. -/
theorem getElem?_of_extends {α : Type} {first second : List α} (extends_ : first <+: second)
    {i : Nat} {entry : α} (found : first[i]? = some entry) : second[i]? = some entry := by
  obtain ⟨rest, rfl⟩ := extends_
  rw [List.getElem?_append_left (List.getElem?_eq_some_iff.mp found).1, found]

/-- The tables of a finished part, as the applier reads them. -/
def Part.tables (whole : Part) : PartTables := ⟨whole.modes.entries, whole.xattrs.entries, whole.blob⟩

/-! ### The four ways to pack an object -/

/-- The indexes of a file in the tables, and the part with them. -/
def Part.indexed (part : Part) (file : FileObject) : Nat × Nat × Part :=
  let (modeIndex, part) := part.modeIndex file.uid file.gid file.mode
  let (xattrIndex, part) := part.xattrIndex file.xattrs
  (modeIndex, xattrIndex, part)

/-- A file is added after its indexes. -/
def Part.pack (part : Part) (file : FileObject) (add : Part → Nat → Nat → Part) : Part :=
  add (part.indexed file).2.2 (part.indexed file).1 (part.indexed file).2.1

/-- What `add_object` does with an object. -/
inductive Packed (repo : Repo) (part : Part) (item : PackItem) : Part → Prop where
  | metadata (none : item.file = none)
      (loads : repo.loadObjectBytes item.objtype item.checksum = .ok bytes) :
      Packed repo part item (addMetadata part item bytes)
  | splice (some : item.file = some file) :
      Packed repo part item (part.pack file (addSplice · item · · file.spliced))
  | runs (some : item.file = some file)
      (kind : file.kind = .regular content) (loads : repo.loadFile source = .ok sourceFile) :
      Packed repo part item
        (part.pack file (addRuns · item · · source content (Rollsum.plan sourceFile.content content).runs))
  | patch (some : item.file = some file) (kind : file.kind = .regular content)
      (loads : repo.loadFile source = .ok sourceFile)
      (diff : repo.bsdiff sourceFile.content content = .ok stream) :
      Packed repo part item (part.pack file (addPatch · item · · source stream content.length))

variable {part next : Part}

theorem addObject_packed (added : addObject repo opts part item = .ok next) : Packed repo part item next := by
  unfold addObject at added
  split at added
  · next absent =>
    obtain ⟨bytes, loads, ⟨⟩⟩ := bind_eq_ok.mp added
    exact .metadata absent loads
  · next file present =>
    have splice := @Packed.splice repo part item file present
    dsimp only at added
    split at added
    · next target kind =>
      cases added
      rwa [FileObject.spliced, kind] at splice
    · next content kind =>
      rw [FileObject.spliced, kind] at splice
      split at added
      · cases added
        exact splice
      · next source _ =>
        obtain ⟨sourceFile, loads, added⟩ := bind_eq_ok.mp added
        split at added
        · cases added
          exact .runs present kind loads
        · obtain ⟨tried, attempt, added⟩ := bind_eq_ok.mp added
          cases tried with
          | none =>
            cases added
            exact splice
          | some stream =>
            cases added
            refine .patch present kind loads ?_
            unfold patchStream at attempt
            dsimp only at attempt
            split at attempt
            · obtain ⟨diff, found, attempt⟩ := bind_eq_ok.mp attempt
              split at attempt
              · cases attempt
                exact found
              · cases attempt
            · cases attempt

theorem Packed.stage (packed : Packed repo part item next) :
    StageOf part next := by
  have indexed : ∀ file, StageOf part (part.indexed file).2.2 :=
    fun file => StageOf.modeIndex.trans .xattrIndex
  cases packed with
  | metadata => exact .addMetadata
  | splice => exact (indexed _).trans .addSplice
  | runs => exact (indexed _).trans .addRuns
  | patch => exact (indexed _).trans .addPatch

theorem addObjects_stage (added : addObjects repo opts part items = .ok whole) : StageOf part whole := by
  induction items generalizing part with
  | nil => cases added; exact .refl _
  | cons item items ih =>
    obtain ⟨next, first, rest⟩ := bind_eq_ok.mp added
    exact (addObject_packed first).stage.trans (ih rest)

/-! ### Replaying an object -/

section Objects

variable {σ : Type} {store : Store σ} {checks : ModeChecks} {repo : Repo} {whole : Part}

/-- The machine after `count` objects, with the object that is open. -/
structure Making (repo : Repo) (m : Machine σ) (count : Nat) (log : List Written) (obj : Option OpenState) : Prop where
  index : m.index = count
  log : m.txn.log = log
  opened : m.opened = obj
  idle : m.source.active = false
  sound : CacheSound repo m.source

/-- The machine between two objects. -/
abbrev Ready (repo : Repo) (m : Machine σ) (count : Nat) (log : List Written) : Prop := Making repo m count log none

/-- The machine of the applier runs through the segment of a finished part. -/
abbrev Replays (store : Store σ) (checks : ModeChecks) (whole : Part) (m : Machine σ)
    (segment : Bytes) (m' : Machine σ) : Prop :=
  Plays store whole.tables whole.objects checks m segment m'

theorem activeBytes_of_idle {cache : SourceCache} (idle : cache.active = false) : cache.activeBytes = none := by
  rw [SourceCache.activeBytes, idle]
  rfl

theorem cacheSound_of_loads (loads : repo.loadFile source = .ok sourceFile) (active : Bool) :
    CacheSound repo ⟨some (source, sourceFile.content), active⟩ := by
  rintro _ _ ⟨⟩ other found
  cases loads.symm.trans found
  rfl

variable {objtype : ObjectType} {checksum source : Checksum} {file sourceFile : FileObject}
  {framed bytes : Bytes} {count : Nat} {log : List Written} {m : Machine σ}

/-- **One run of a copy plan.** -/
theorem addRun_plays (accepts : Accepts store) (holds : HoldsSources store repo)
    (loads : repo.loadFile source = .ok sourceFile) (sourceSmall : Addressable sourceFile.content)
    (fits : Addressable whole.blob) {sourceOffset : Nat} (named : FoundAt whole.blob sourceOffset source.bytes)
    (stage : StageOf (addRun file.content sourceOffset part run) whole)
    (inside : run.Inside sourceFile.content file.content) {sofar : Bytes}
    (making : Making repo m count log (some (filling objtype checksum file framed sofar)))
    (room : sofar.length + (run.bytes sourceFile.content file.content).length ≤ file.content.length) :
    ∃ segment m', (addRun file.content sourceOffset part run).ops = part.ops ++ segment ∧
      Replays store checks whole m segment m' ∧
      Making repo m' count log
        (some (filling objtype checksum file framed (sofar ++ run.bytes sourceFile.content file.content))) := by
  cases run with
  | copy off length =>
    have found : FoundAt sourceFile.content off (sourceFile.content.extract off (off + length)) :=
      foundAt_extract inside
    obtain ⟨loaded, selected⟩ :=
      plays_setReadSource whole.tables whole.objects checks holds loads making.sound named fits
    obtain ⟨state, written⟩ := plays_write whole.tables whole.objects checks accepts
      (m := { m with source := ⟨some (source, sourceFile.content), true⟩, txn := { m.txn with state := loaded } })
      making.opened found sourceSmall room
    rw [length_extract_run inside] at written
    refine ⟨_, _, ?_, (selected.trans written).trans (plays_unsetReadSource _ _ _),
      ⟨making.index, making.log, rfl, rfl, cacheSound_of_loads loads _⟩⟩
    simp [addRun, Part.pushOp]
  | payload off length =>
    have found : FoundAt (m.source.activeBytes.getD whole.blob) part.blob.length
        (file.content.extract off (off + length)) := by
      rw [activeBytes_of_idle making.idle]
      exact foundAt_of_append stage.blob
    have small : Addressable (m.source.activeBytes.getD whole.blob) := by
      rw [activeBytes_of_idle making.idle]
      exact fits
    obtain ⟨state, written⟩ :=
      plays_write whole.tables whole.objects checks accepts making.opened found small room
    rw [length_extract_run inside] at written
    exact ⟨_, _, rfl, written, ⟨making.index, making.log, rfl, making.idle, making.sound⟩⟩

/-- **A copy plan**, by induction on its runs. -/
theorem addRunList_plays (accepts : Accepts store) (holds : HoldsSources store repo)
    (loads : repo.loadFile source = .ok sourceFile) (sourceSmall : Addressable sourceFile.content)
    (fits : Addressable whole.blob)
    (named : FoundAt whole.blob sourceOffset source.bytes) {runs : List Rollsum.Run}
    (stage : StageOf (runs.foldl (addRun file.content sourceOffset) part) whole)
    (inside : ∀ run ∈ runs, run.Inside sourceFile.content file.content)
    (making : Making repo m count log (some (filling objtype checksum file framed sofar)))
    (total : sofar ++ runs.flatMap (Rollsum.Run.bytes sourceFile.content file.content) = file.content) :
    ∃ segment m', (runs.foldl (addRun file.content sourceOffset) part).ops = part.ops ++ segment ∧
      Replays store checks whole m segment m' ∧
      Making repo m' count log (some (filling objtype checksum file framed file.content)) := by
  induction runs generalizing part m sofar with
  | nil =>
    rw [List.flatMap_nil, List.append_nil] at total
    exact ⟨[], m, (List.append_nil _).symm, .refl m, total ▸ making⟩
  | cons run runs ih =>
    rw [List.flatMap_cons, ← List.append_assoc] at total
    have room : sofar.length + (run.bytes sourceFile.content file.content).length ≤ file.content.length := by
      have length := congrArg List.length total
      simp only [List.length_append] at length
      omega
    rw [List.foldl_cons] at stage ⊢
    obtain ⟨first, m₁, firstOps, plays, making⟩ := addRun_plays accepts holds loads sourceSmall fits
      named (StageOf.addRunList.trans stage) (inside run (.head _)) making room
    obtain ⟨rest, m₂, restOps, others, made⟩ :=
      ih stage (fun run member => inside run (.tail _ member)) making total
    refine ⟨first ++ rest, m₂, ?_, plays.trans others, made⟩
    rw [restOps, firstOps, List.append_assoc]

theorem indexed_fileMeta (stage : StageOf (part.indexed file).2.2 whole) :
    whole.tables.fileMeta (part.indexed file).1 (part.indexed file).2.1 = .ok file.fileMeta ∧
      (part.indexed file).1 < whole.modes.entries.length ∧
      (part.indexed file).2.1 < whole.xattrs.entries.length := by
  have mode : whole.modes.entries[(part.indexed file).1]? = some (file.uid, file.gid, file.mode) :=
    getElem?_of_extends stage.modes (part.modes.intern_getElem? _)
  have xattrs : whole.xattrs.entries[(part.indexed file).2.1]? = some file.xattrs :=
    getElem?_of_extends stage.xattrs (part.xattrs.intern_getElem? _)
  refine ⟨?_, (List.getElem?_eq_some_iff.mp mode).1, (List.getElem?_eq_some_iff.mp xattrs).1⟩
  simp only [PartTables.fileMeta, Part.tables, mode, xattrs]
  rfl

/-- An object of the repository, under its checksum: a metadata object below the ceiling, or a file
that the checks of the destination do not refuse. -/
def PackItem.Sound (repo : Repo) (store : Store σ) (checks : ModeChecks) (item : PackItem) : Prop :=
  match item.file with
  | none => item.objtype.isMeta = true ∧
    ∀ bytes, repo.loadObjectBytes item.objtype item.checksum = .ok bytes →
      store.sha256 bytes = item.checksum ∧ bytes.length ≤ maxMetadataSize
  | some file => item.objtype = .file ∧ Addressable file.content ∧
    checks.check item.checksum file.fileMeta = .ok () ∧
    ∃ framed, (file.header.serialize >>= FileHeader.frame) = .ok framed ∧
      store.sha256 (framed ++ file.content) = item.checksum

/-- The write that delivers an object. -/
def PackItem.Delivered (repo : Repo) (item : PackItem) (written : Written) : Prop :=
  match item.file with
  | none => ∃ bytes, repo.loadObjectBytes item.objtype item.checksum = .ok bytes ∧
    written = .metadata item.objtype item.checksum bytes
  | some file => written = file.written item.checksum

/-- What the replay of any object rests on. -/
structure Setting (repo : Repo) (store : Store σ) (checks : ModeChecks) (whole : Part) : Prop where
  accepts : Accepts store
  strict : store.mode = .bareUserOnly → checks.canonical = true
  holds : HoldsSources store repo
  sources : ∀ source file, repo.loadFile source = .ok file → Addressable file.content
  patches : ∀ source target stream, repo.bsdiff source target = .ok stream →
    ∃ pieces, bspatch source stream target.length = (pieces, .ok ()) ∧ pieces.flatten = target
  blob : Addressable whole.blob
  modes : Operand whole.modes.entries.length
  xattrs : Operand whole.xattrs.entries.length
  sets : ∀ set ∈ whole.xattrs.entries, ∀ bytes, encodeToVec Xattrs.encoder set = .ok bytes →
    bytes.length ≤ maxTableBytes

theorem operand_of_addressable (fits : Addressable bytes) : Operand bytes.length := by
  unfold Addressable usizeMax at fits
  unfold Operand Varint.limit
  omega

/-- The object that a stage has just finished is declared at the place of the machine. -/
theorem declared_of_stage {before : List (ObjectType × Checksum)} {object : ObjectType × Checksum}
    (stage : before ++ [object] <+: whole.objects) : whole.objects[before.length]? = some object :=
  getElem?_of_extends stage (by simp)

/-- A file whose xattrs are in the table is one that the store takes. -/
theorem packable_of_checked (setting : Setting repo store checks whole) (tabled : file.xattrs ∈ whole.xattrs.entries)
    (checked : checks.check checksum file.fileMeta = .ok ())
    (framing : (file.header.serialize >>= FileHeader.frame) = .ok framed)
    (digest : store.sha256 (framed ++ file.content) = checksum) : Packable store checks checksum file framed where
  checked := checked
  canonical := canonicalHeader_of_checked setting.strict checked
  framing := framing
  reserved := by
    rintro ⟨content, kind⟩ -
    obtain ⟨data, written, -⟩ := bind_eq_ok.mp framing
    refine FileHeader.serializeArchive_frames written (by simp only [FileObject.header, kind]) 0 fun bytes encoded => ?_
    have small := setting.sets _ tabled bytes encoded
    unfold maxTableBytes maxMetadataSize at small
    unfold FileHeader.framingLimit
    omega
  digest := digest

/-- The operations of an object, replayed, write exactly it. -/
def Repacks (repo : Repo) (store : Store σ) (checks : ModeChecks) (whole part next : Part)
    (m : Machine σ) (log : List Written) (written : Written) : Prop :=
  ∃ segment m', next.ops = part.ops ++ segment ∧ Replays store checks whole m segment m' ∧
    Ready repo m' next.objects.length (log ++ [written])

section Ways

variable {part : Part} {item : PackItem} {m : Machine σ} (setting : Setting repo store checks whole)
  (ready : Ready repo m part.objects.length log)

include setting ready

theorem addMetadata_repacks (kind : item.objtype.isMeta = true)
    (stage : StageOf (addMetadata part item bytes) whole) (digest : store.sha256 bytes = item.checksum)
    (small : bytes.length ≤ maxMetadataSize) :
    Repacks repo store checks whole part (addMetadata part item bytes) m log
      (.metadata item.objtype item.checksum bytes) := by
  have found : FoundAt whole.blob part.blob.length bytes := foundAt_of_append stage.blob
  have declared : whole.objects[m.index]? = some (item.objtype, item.checksum) :=
    ready.index ▸ declared_of_stage stage.objects
  obtain ⟨state, plays⟩ := plays_spliceMetadata whole.tables whole.objects checks setting.accepts
    declared kind found setting.blob small digest
  refine ⟨_, _, rfl, plays, ⟨?_, ?_, ready.opened, ready.idle, ready.sound⟩⟩
  · simp [addMetadata, Part.append, Part.pushOp, Part.finishObject, ready.index]
  · rw [ready.log]

theorem addSplice_repacks (content : item.objtype.isMeta = false)
    (stage : StageOf (part.pack file (addSplice · item · · file.spliced)) whole)
    (packable : Packable store checks item.checksum file framed) :
    Repacks repo store checks whole part (part.pack file (addSplice · item · · file.spliced)) m log
      (file.written item.checksum) := by
  have found : FoundAt whole.blob part.blob.length file.spliced := foundAt_of_append stage.blob
  have declared : whole.objects[m.index]? = some (item.objtype, item.checksum) :=
    ready.index ▸ declared_of_stage stage.objects
  obtain ⟨metadata, modeIdx, xattrIdx⟩ := indexed_fileMeta (StageOf.addSplice.trans stage)
  obtain ⟨state, plays⟩ := plays_spliceContent whole.tables whole.objects checks setting.accepts declared content
    (modeIdx.trans setting.modes) (xattrIdx.trans setting.xattrs) metadata found setting.blob packable
  refine ⟨_, _, rfl, plays, ⟨?_, ?_, ready.opened, ready.idle, ready.sound⟩⟩
  · simp [Part.pack, addSplice, Part.append, Part.pushOp, Part.finishObject, Part.indexed,
      Part.modeIndex, Part.xattrIndex, ready.index]
  · rw [ready.log]

/-- The `o` and the `c` around the operations that rebuild a file. -/
theorem rebuilt_repacks (kind : file.kind = .regular bytes) (content : item.objtype.isMeta = false)
    (stage : StageOf next whole) (indexes : StageOf (part.indexed file).2.2 next)
    (objects : next.objects = part.objects ++ [(item.objtype, item.checksum)])
    (sizeSmall : Addressable file.content) (packable : Packable store checks item.checksum file framed)
    (middle : Bytes)
    (ops : next.ops = part.ops ++ (Part.opBytes .open_ [(part.indexed file).1,
      (part.indexed file).2.1, file.content.length] ++ middle ++ Part.opBytes .close []))
    (rebuilds : ∀ m', Making repo m' part.objects.length log
        (some (filling item.objtype item.checksum file framed [])) →
      ∃ m'', Replays store checks whole m' middle m'' ∧ Making repo m'' part.objects.length log
        (some (filling item.objtype item.checksum file framed file.content))) :
    Repacks repo store checks whole part next m log (file.written item.checksum) := by
  have declared : whole.objects[m.index]? = some (item.objtype, item.checksum) :=
    ready.index ▸ declared_of_stage (objects ▸ stage.objects)
  obtain ⟨metadata, modeIdx, xattrIdx⟩ := indexed_fileMeta (indexes.trans stage)
  obtain ⟨state, opens⟩ := plays_open whole.tables whole.objects checks setting.accepts declared content kind
    (modeIdx.trans setting.modes) (xattrIdx.trans setting.xattrs) (operand_of_addressable sizeSmall) metadata
    packable
  obtain ⟨m'', fills, made⟩ := rebuilds
    { m with
      opened := some (filling item.objtype item.checksum file framed []), txn := { m.txn with state } }
    ⟨ready.index, ready.log, rfl, ready.idle, ready.sound⟩
  obtain ⟨last, closes⟩ := plays_close whole.tables whole.objects checks setting.accepts made.opened packable
  refine ⟨_, _, ops, (opens.trans fills).trans closes, ⟨?_, ?_, rfl, made.idle, made.sound⟩⟩
  · rw [objects, List.length_append]
    exact congrArg (· + 1) made.index
  · have same : file.written item.checksum = .regular item.checksum file.header file.content := by
      simp only [FileObject.written, FileObject.content, kind]
    rw [same]
    exact congrArg (· ++ [_]) made.log

/-- A splice of rollsum runs plays back to the file. -/
theorem addRuns_repacks (kind : file.kind = .regular bytes)
    (content : item.objtype.isMeta = false) (loads : repo.loadFile source = .ok sourceFile)
    (stage : StageOf (part.pack file (addRuns · item · · source bytes (Rollsum.plan sourceFile.content bytes).runs))
      whole) (sizeSmall : Addressable file.content) (packable : Packable store checks item.checksum file framed) :
    Repacks repo store checks whole part (part.pack file (addRuns · item · · source bytes
      (Rollsum.plan sourceFile.content bytes).runs)) m log (file.written item.checksum) := by
  obtain rfl : file.content = bytes := by simp only [FileObject.content, kind]
  obtain ⟨rebuilt, inside⟩ := Rollsum.plan_rebuilds sourceFile.content file.content
  generalize (Rollsum.plan sourceFile.content file.content).runs = runs at *
  -- The part when the runs begin: the object is open, and the data source names the source object.
  let begun : Part := (((part.indexed file).2.2.pushOp .open_
    [(part.indexed file).1, (part.indexed file).2.1, file.content.length]).append source.bytes).2
  have filled : StageOf (runs.foldl (addRun file.content part.blob.length) begun) whole :=
    (StageOf.pushOp.trans .finishObject).trans stage
  have runsStage : StageOf begun (runs.foldl (addRun file.content part.blob.length) begun) := .addRunList
  have named : FoundAt whole.blob part.blob.length source.bytes :=
    foundAt_of_append (runsStage.trans filled).blob
  obtain ⟨middle, ops⟩ := runsStage.ops
  refine rebuilt_repacks setting ready kind content stage .addRuns ?_ sizeSmall packable middle ?_
    fun m' making => ?_
  · exact congrArg (· ++ [_]) (addRunList_objects file.content part.blob.length begun runs)
  · have whole : (part.pack file (addRuns · item · · source file.content runs)).ops =
        (runs.foldl (addRun file.content part.blob.length) begun).ops ++ Part.opBytes .close [] := rfl
    rw [whole, ← ops]
    simp only [begun, Part.append, Part.pushOp, List.append_assoc]
    rfl
  · obtain ⟨segment, m'', segmentOps, plays, made⟩ := addRunList_plays setting.accepts setting.holds
      loads (setting.sources _ _ loads) setting.blob named filled inside making rebuilt
    obtain rfl : segment = middle := List.append_cancel_left (segmentOps.symm.trans ops.symm)
    exact ⟨m'', plays, made⟩

/-- So does a patch. -/
theorem addPatch_repacks (kind : file.kind = .regular bytes)
    (content : item.objtype.isMeta = false) (loads : repo.loadFile source = .ok sourceFile)
    (diff : repo.bsdiff sourceFile.content bytes = .ok stream)
    (stage : StageOf (part.pack file (addPatch · item · · source stream bytes.length)) whole)
    (sizeSmall : Addressable file.content) (packable : Packable store checks item.checksum file framed) :
    Repacks repo store checks whole part (part.pack file (addPatch · item · · source stream bytes.length)) m log
      (file.written item.checksum) := by
  obtain rfl : file.content = bytes := by simp only [FileObject.content, kind]
  have named : FoundAt whole.blob part.blob.length source.bytes :=
    foundAt_of_append ((List.prefix_append _ stream).trans stage.blob)
  have patch : FoundAt whole.blob (part.blob ++ source.bytes).length stream := foundAt_of_append stage.blob
  obtain ⟨pieces, patched, rebuilt⟩ := setting.patches _ _ _ diff
  refine rebuilt_repacks setting ready kind content stage .addPatch rfl sizeSmall packable
    (Part.opBytes .setReadSource [part.blob.length]
      ++ Part.opBytes .bspatch [(part.blob ++ source.bytes).length, stream.length]
      ++ Part.opBytes .unsetReadSource []) ?_ fun m' making => ?_
  · simp [Part.pack, addPatch, Part.append, Part.pushOp, Part.finishObject, Part.indexed,
      Part.modeIndex, Part.xattrIndex]
  · obtain ⟨loaded, selected⟩ := plays_setReadSource whole.tables whole.objects checks setting.holds
      loads making.sound named setting.blob
    obtain ⟨state, written⟩ := plays_bspatch whole.tables whole.objects checks setting.accepts
      (m := { m' with
        source := ⟨some (source, sourceFile.content), true⟩, txn := { m'.txn with state := loaded } })
      making.opened rfl patch setting.blob patched rebuilt
    exact ⟨_, (selected.trans written).trans (plays_unsetReadSource _ _ _),
      ⟨making.index, making.log, rfl, rfl, cacheSound_of_loads loads _⟩⟩

/-- **One object.** -/
theorem Packed.repacks (packed : Packed repo part item next) (stage : StageOf next whole)
    (sound : item.Sound repo store checks) :
    ∃ written, item.Delivered repo written ∧ Repacks repo store checks whole part next m log written := by
  unfold PackItem.Sound at sound
  unfold PackItem.Delivered
  have tabled : ∀ file, StageOf (part.indexed file).2.2 next → file.xattrs ∈ whole.xattrs.entries := by
    intro file indexes
    exact List.mem_of_getElem? (getElem?_of_extends (indexes.trans stage).xattrs (part.xattrs.intern_getElem? _))
  cases packed with
  | metadata absent loads =>
    simp only [absent] at sound ⊢
    obtain ⟨digest, small⟩ := sound.2 _ loads
    exact ⟨_, ⟨_, loads, rfl⟩, addMetadata_repacks setting ready sound.1 stage digest small⟩
  | splice present =>
    simp only [present] at sound ⊢
    obtain ⟨content, -, checked, framed, framing, digest⟩ := sound
    have packable := packable_of_checked setting (tabled _ .addSplice) checked framing digest
    exact ⟨_, rfl, addSplice_repacks setting ready (by rw [content]; rfl) stage packable⟩
  | runs present kind loads =>
    simp only [present] at sound ⊢
    obtain ⟨content, small, checked, framed, framing, digest⟩ := sound
    have packable := packable_of_checked setting (tabled _ .addRuns) checked framing digest
    exact ⟨_, rfl, addRuns_repacks setting ready kind (by rw [content]; rfl) loads stage small packable⟩
  | patch present kind loads diff =>
    simp only [present] at sound ⊢
    obtain ⟨content, small, checked, framed, framing, digest⟩ := sound
    have packable := packable_of_checked setting (tabled _ .addPatch) checked framing digest
    exact ⟨_, rfl, addPatch_repacks setting ready kind (by rw [content]; rfl) loads diff stage small packable⟩

end Ways

/-- **A list of objects**, by induction on the list. -/
theorem addObjects_play (setting : Setting repo store checks whole)
    (added : addObjects repo opts part items = .ok whole)
    (sound : ∀ item ∈ items, item.Sound repo store checks) (ready : Ready repo m part.objects.length log) :
    ∃ segment m' written, whole.ops = part.ops ++ segment ∧ Replays store checks whole m segment m' ∧
      List.Forall₂ (PackItem.Delivered repo) items written ∧
      Ready repo m' whole.objects.length (log ++ written) := by
  induction items generalizing part m log with
  | nil =>
    cases added
    exact ⟨[], m, [], (List.append_nil _).symm, .refl m, .nil, by rwa [List.append_nil]⟩
  | cons item items ih =>
    obtain ⟨next, first, rest⟩ := bind_eq_ok.mp added
    obtain ⟨written, delivered, segment, m₁, ops, plays, ready⟩ :=
      (addObject_packed first).repacks setting ready (addObjects_stage rest) (sound item (.head _))
    obtain ⟨segments, m₂, others, restOps, restPlays, restDelivered, done⟩ :=
      ih rest (fun other member => sound other (.tail _ member)) ready
    refine ⟨segment ++ segments, m₂, written :: others, ?_, plays.trans restPlays, .cons delivered restDelivered, ?_⟩
    · rw [restOps, ops, List.append_assoc]
    · rwa [List.append_assoc] at done

end Objects

/-! ### Generation and application -/

theorem payload_bounds (framed : part.payload = .ok payload) (fits : Addressable payload) :
    Addressable part.blob ∧ Operand part.modes.entries.length ∧ Operand part.xattrs.entries.length ∧
      ∀ set ∈ part.xattrs.entries, ∀ bytes, encodeToVec Xattrs.encoder set = .ok bytes →
        bytes.length ≤ maxTableBytes := by
  obtain ⟨table, encoded, tables, -, rfl⟩ := payload_eq_ok.mp framed
  have limit : maxTableBytes < Varint.limit := by decide
  rw [xattrTable_eq_ok, encodeToVec_slice, map_eq_ok] at encoded
  obtain ⟨parts, wrote, rfl⟩ := encoded
  have each := mapM_eq_ok.mp wrote
  refine ⟨?_, ?_, ?_, ?_⟩
  · rw [tupleBytes_members] at fits
    simp only [Addressable, List.length_append] at fits ⊢
    omega
  · rw [modeTable_length] at tables
    omega
  · have count := count_le_arrayBytes 1 parts
    rw [← each.length_eq] at count
    refine lt_of_le_of_lt (count.trans (le_trans ?_ tables)) limit
    exact Nat.le_add_left _ _
  · intro set member bytes encoded
    obtain ⟨part', inside, same⟩ := forall₂_exists_left each.flip member
    cases same.symm.trans encoded
    exact ((length_le_arrayBytes inside).trans (Nat.le_add_left _ _)).trans tables

theorem decodePart_writePart (inverts : ∀ payload, xz.decompress (xz.compress payload) = .ok payload)
    (written : writePart xz sha256 target part = .ok (compression, body, entry, left))
    (fits : Addressable (compression :: body)) :
    entry.objects = part.objects ∧ ∃ payload, part.payload = .ok payload ∧
      decodePart xz sha256 compression body entry.deltaPart = .ok payload := by
  obtain ⟨payload, framed, written⟩ := bind_eq_ok.mp written
  have recorded : compression = compressionXz ∧ body = xz.compress payload ∧ entry.objects = part.objects ∧
      entry.checksum = sha256 (compression :: body) ∧ entry.size = .ofNat (compression :: body).length := by
    grind
  obtain ⟨rfl, rfl, objects, checksum, size⟩ := recorded
  refine ⟨objects, payload, framed, ?_⟩
  have whole : entry.size.toNat = (xz.compress payload).length + 1 := by
    rw [size, UInt64.toNat_ofNat_of_lt']
    · rfl
    · exact Nat.lt_succ_of_le fits
  simp [decodePart, PartEntry.deltaPart, whole, checksum, compressionXz, compressionNone, inverts]

/-- **Delta generation and application are inverse.** Objects of a repository are added in order to
one part, and the part is written, as a file or inline. Then the part decodes to the payload, the
payload decodes to the tables and the stream, and its application, to a store that accepts writes
and holds the source objects, succeeds and writes exactly those objects, in order. The checks refuse
none of the objects, and for a bare-user-only destination include the canonical form, as
`ModeChecks::new` arranges. -/
theorem generate_apply {σ : Type} (store : Store σ) (repo : Repo) (xz : Xz) (opts : DeltaOptions)
    (checks : ModeChecks) (target left : PartTarget) (items : List PackItem) (part : Part) (compression : UInt8)
    (body : Bytes) (entry : PartEntry) (txn : Txn σ) (accepts : Accepts store) (holds : HoldsSources store repo)
    (sources : ∀ source file, repo.loadFile source = .ok file → Addressable file.content)
    (patches : ∀ source target stream, repo.bsdiff source target = .ok stream →
      ∃ pieces, bspatch source stream target.length = (pieces, .ok ()) ∧ pieces.flatten = target)
    (inverts : ∀ payload, xz.decompress (xz.compress payload) = .ok payload)
    (strict : store.mode = .bareUserOnly → checks.canonical = true)
    (sound : ∀ item ∈ items, item.Sound repo store checks) (added : addObjects repo opts .default items = .ok part)
    (written : writePart xz store.sha256 target part = .ok (compression, body, entry, left))
    (file : Addressable (compression :: body))
    (fits : ∀ payload, part.payload = .ok payload → Addressable payload) :
    ∃ payload view final writes, decodePart xz store.sha256 compression body entry.deltaPart = .ok payload ∧
      partView payload = .ok view ∧ view.ops = part.ops ∧ readTables view = .ok part.tables ∧
      applyPart store payload entry.objects checks txn = .ok final ∧
      final.log = txn.log ++ writes ∧ List.Forall₂ (PackItem.Delivered repo) items writes := by
  obtain ⟨objects, payload, framed, decoded⟩ := decodePart_writePart inverts written file
  obtain ⟨blob, modes, xattrs, sets⟩ := payload_bounds framed (fits payload framed)
  obtain ⟨view, viewed, ops, tables⟩ := payload_reads framed (fits payload framed)
  have setting : Setting repo store checks part :=
    ⟨accepts, strict, holds, sources, patches, blob, modes, xattrs, sets⟩
  have ready : Ready repo (⟨0, ⟨none, false⟩, none, txn⟩ : Machine σ) Part.default.objects.length txn.log :=
    ⟨rfl, rfl, rfl, rfl, by rintro _ _ ⟨⟩⟩
  obtain ⟨segment, m, writes, whole, plays, delivered, done⟩ := addObjects_play setting added sound ready
  have run : runOps store part.tables part.objects checks view.ops.length
      ⟨0, ⟨none, false⟩, none, txn⟩ view.ops = .ok m := by
    have all := plays []
    rw [List.append_nil] at all
    rw [ops, whole]
    exact all
  have ended : endOps part.objects m = .ok m.txn := by
    rw [endOps, done.opened, done.index]
    simp
  refine ⟨payload, view, m.txn, writes, decoded, viewed, ops, tables, ?_, done.log, delivered⟩
  rw [applyPart, viewed, ok_bind, show readTables view = .ok part.tables from tables, ok_bind,
    objects, run, ok_bind, ended]

/-! ### A part with an object of each kind -/

namespace Sample

def oldBytes : Bytes := asBytes "hello world version one\n"

def newBytes : Bytes := asBytes "hello world version two changed\n"

/-- One block: 20 bytes of the source as they are, and 12 new bytes. -/
def patchBytes : Bytes :=
  leBytes 8 20 ++ leBytes 8 12 ++ leBytes 8 3 ++ List.replicate 20 0 ++ asBytes "two changed\n"

def regular (content : Bytes) : FileObject :=
  ⟨0, 0, 0o100644, .empty, .regular content,
    ⟨fun link => absurd link (by decide), fun ⟨_, link⟩ => by cases link⟩⟩

def link : FileObject :=
  ⟨0, 0, 0o120777, .empty, .symlink "version", ⟨fun _ => ⟨_, rfl⟩, fun _ => by decide⟩⟩

def repo : Repo where
  loadObjectBytes := fun _ _ => .ok [1, 2, 3]
  loadFile := fun _ => .ok (regular oldBytes)
  bsdiff := fun source target =>
    if source = oldBytes ∧ target = newBytes then .ok patchBytes else .error (.io "not a sample")

def store : Store Unit := { openStore with loadSourceBlob := fun _ _ => .ok (oldBytes, ()) }

/-- A file to pack under its own checksum. -/
def packed (source : Option Checksum) (file : FileObject) : PackItem :=
  ⟨.file, store.sha256 (((file.header.serialize >>= FileHeader.frame).toOption.getD []) ++ file.content),
    source, some file⟩

def xz : Xz := ⟨id, .ok⟩

def opts : DeltaOptions := ⟨true, 64, .little, none⟩

/-- A dirtree, a symlink, a spliced file, a copied file and a patched file. -/
def items : List PackItem :=
  [⟨.dirTree, .filled 3, none, none⟩, packed none link, packed none (regular [7]),
    packed (some emptyDigest) (regular oldBytes), packed (some emptyDigest) (regular newBytes)]

theorem accepts : Accepts store :=
  ⟨by decide, fun _ _ _ _ => ⟨(), rfl⟩, fun _ _ _ => ⟨(), rfl⟩, fun _ _ => ⟨(), rfl⟩,
    fun _ _ => ⟨(), rfl⟩, fun _ => ⟨(), rfl⟩, fun _ _ _ _ => ⟨(), rfl⟩⟩

theorem file_sound (small : Addressable file.content)
    (checked : (ModeChecks.new false .archive).check (packed source file).checksum file.fileMeta = .ok ())
    (frames : (file.header.serialize >>= FileHeader.frame).isOk = true) :
    (packed source file).Sound repo store (.new false store.mode) := by
  obtain ⟨framed, framing⟩ := eq_ok_of_isOk frames
  exact ⟨rfl, small, checked, framed, framing, by rw [packed, framing]; rfl⟩

theorem items_sound : ∀ item ∈ items, item.Sound repo store (.new false store.mode) := by
  simp [items]
  refine ⟨⟨rfl, ?_⟩, file_sound (by decide) rfl (by decide +kernel), file_sound (by decide) rfl (by decide +kernel),
    file_sound (by decide) rfl (by decide +kernel), file_sound (by decide) rfl (by decide +kernel)⟩
  rintro bytes ⟨⟩
  exact ⟨rfl, by decide⟩

theorem patches (source target stream : Bytes) (diff : repo.bsdiff source target = .ok stream) :
    ∃ pieces, bspatch source stream target.length = (pieces, .ok ()) ∧ pieces.flatten = target := by
  simp only [repo] at diff
  split at diff
  · next sample =>
    obtain ⟨rfl, rfl⟩ := sample
    cases diff
    have result : (bspatch oldBytes patchBytes newBytes.length).2 = .ok () := by decide +kernel
    exact ⟨(bspatch oldBytes patchBytes newBytes.length).1, by rw [← result], by decide +kernel⟩
  · cases diff

end Sample

theorem generate_apply_sample :
    ∃ part compression body entry payload final writes,
      addObjects Sample.repo Sample.opts .default Sample.items = .ok part ∧
      writePart Sample.xz Sample.store.sha256 .file part = .ok (compression, body, entry, .file) ∧
      applyPart Sample.store payload entry.objects (.new false .archive) ⟨(), []⟩ = .ok final ∧
      final.log = [] ++ writes ∧ List.Forall₂ (PackItem.Delivered Sample.repo) Sample.items writes := by
  obtain ⟨part, added⟩ := eq_ok_of_isOk
    (by decide +kernel : (addObjects Sample.repo Sample.opts .default Sample.items).isOk = true)
  have written : (addObjects Sample.repo Sample.opts .default Sample.items >>= Part.payload).isOk = true := by
    decide +kernel
  have short : ((addObjects Sample.repo Sample.opts .default Sample.items >>= Part.payload).map
      List.length).toOption.any (· < usizeMax) = true := by
    decide +kernel
  rw [added, ok_bind] at written short
  obtain ⟨payload, framed⟩ := eq_ok_of_isOk written
  have small : payload.length < usizeMax := by
    rw [framed] at short
    simpa [Except.toOption] using short
  have fits : ∀ other, part.payload = .ok other → Addressable other := by
    intro other same
    cases framed.symm.trans same
    exact small.le
  have file : writePart Sample.xz Sample.store.sha256 .file part
      = .ok (compressionXz, payload,
        ⟨Sample.store.sha256 (compressionXz :: payload), .ofNat (payload.length + 1),
          .ofNat part.uncompressedSize, part.objects, none⟩, .file) := by
    rw [writePart, framed, ok_bind]
    rfl
  obtain ⟨payload, view, final, writes, -, -, -, -, applied, log, delivered⟩ := generate_apply Sample.store
    Sample.repo Sample.xz Sample.opts (.new false .archive) .file .file Sample.items part _ _ _ ⟨(), []⟩
    Sample.accepts (by rintro _ _ ⟨⟩ _; exact ⟨(), rfl⟩) (by rintro _ _ ⟨⟩; decide) Sample.patches (fun _ => rfl)
    (fun only => by cases only) Sample.items_sound added file small fits
  exact ⟨part, _, _, _, payload, final, writes, added, file, applied, log, delivered⟩

end Ostrya.Delta
