import Fsyncer.SnapshotStore

/-! Replay of a snapshot. `SnapshotApply` is an iterator that is resumed between
calls, with an iterator of its own for the extents and for the attributes of the
file it is at. What it produces for a file depends on that file only
(`replayFile`), and the whole is the concatenation (`drains_apply_iff`). -/
namespace Fsyncer.SnapshotReplay
open Fsyncer.ByteFile (Failure IoError readExactAt)
open Fsyncer.FileTree (Name Path)
open Fsyncer.Machine Fsyncer.SnapshotStore Fsyncer.Vfs

/-! ### The iterator -/

/-- An extended attribute as the snapshot keeps it: set, or removed. -/
abbrev Attribute := Name × Option (List UInt8)

/-- The order in which a hash map hands out its entries, which is not specified. -/
structure HashOrder where
  arrange : List Attribute → List Attribute
  perm : ∀ entries, (arrange entries).Perm entries

structure SnapshotApply where
  serialised : ByteFile.File
  fileIter : List (Path × File)
  currentFile : Option (Path × File)
  dataIter : Option (List (ℕ × Block))
  xattrIter : Option (List Attribute)

/-- `Snapshot::apply`. -/
def apply (s : Snapshot) : SnapshotApply where
  serialised := s.serialised
  fileIter := s.files.entries
  currentFile := none
  dataIter := none
  xattrIter := none

/-- `Option::unwrap`. -/
def unwrap : Option α → Except Failure α
  | some value => .ok value
  | none => .error (.panic "called `Option::unwrap()` on a `None` value")

/-- `CStr::from_bytes_with_nul`: the one zero byte is the last. -/
def fromBytesWithNul (bytes : List UInt8) : Option Name :=
  if bytes.getLast? = some 0 ∧ 0 ∉ bytes.dropLast then some bytes.dropLast else none

/-- The call that brings a file into being, with the fields that it uses up
taken from the file; a file that was there before needs none. -/
def creation (path : Path) (file : File) : Except Failure (Option (VFSCall × File)) :=
  let unowned := { file with uid := none, gid := none }
  let untold := { unowned with mode := none }
  match file.ty with
  | .invalid => .error (.panic "Invalid file type")
  | .opened => .ok none
  | .directory => do
    let mode ← unwrap file.mode
    let uid ← unwrap file.uid
    let gid ← unwrap file.gid
    .ok (some (.mkdir path (.unix uid gid) mode, untold))
  | .new flags => do
    let mode ← unwrap file.mode
    let uid ← unwrap file.uid
    let gid ← unwrap file.gid
    .ok (some (.create path flags (.unix uid gid) mode, untold))
  | .special rdev => do
    let mode ← unwrap file.mode
    let uid ← unwrap file.uid
    let gid ← unwrap file.gid
    .ok (some (.mknod path mode rdev (.unix uid gid), untold))
  | .symlink source => do
    let uid ← unwrap file.uid
    let gid ← unwrap file.gid
    .ok (some (.symlink source path (.unix uid gid), unowned))
  | .hardlink source => do
    let uid ← unwrap file.uid
    let gid ← unwrap file.gid
    .ok (some (.link source path (.unix uid gid), unowned))
  | .moved source => .ok (some (.rename source path 0, file))

/-- The next call for a field that is still set. -/
def metadata (path : Path) (file : File) : Option (VFSCall × File) :=
  let unowned := { file with uid := none, gid := none }
  match file.uid, file.gid with
  | some uid, some gid => some (.security path (.unix uid gid), unowned)
  | _, _ =>
    match file.mode with
    | some mode => some (.chmod path mode, { unowned with mode := none })
    | none =>
      match file.size with
      | .exactly size => some (.truncate path size.toInt64, { unowned with size := .unknown })
      | .moreThan size => some (.fallocate path 0 0 size.toInt64, { unowned with size := .unknown })
      | .unknown =>
        match file.time with
        | some timespec => some (.utimens path timespec, { unowned with time := none })
        | none => none

def xattrCall (path : Path) (item : Attribute) : Except Failure VFSCall := do
  let name ← unwrap (fromBytesWithNul item.1)
  match item.2 with
  | some value => .ok (.setxattr path name value 0)
  | none => .ok (.removexattr path name)

/-- What is left to do for the current file; `none` when nothing is. -/
def resume (path : Path) (file : File) (xattrIter : Option (List Attribute)) :
    Except Failure (Option (VFSCall × File × Option (List Attribute))) :=
  match metadata path file with
  | some (call, file) => .ok (some (call, file, xattrIter))
  | none =>
    match xattrIter with
    | some (item :: rest) => do
      let call ← xattrCall path item
      .ok (some (call, { file with uid := none, gid := none }, some rest))
    | _ => .ok none

/-- The first call for a file. -/
def start (path : Path) (file : File) (xattrIter : Option (List Attribute)) :
    Except Failure (Option (VFSCall × File × Option (List Attribute))) := do
  match ← creation path file with
  | some (call, file) => .ok (some (call, file, xattrIter))
  | none => resume path file xattrIter

/-- `next` without a current file. Extents still to come then have no path to
go to. -/
def nextFile (order : HashOrder) (serialised : ByteFile.File) :
    List (Path × File) → Option (List (ℕ × Block)) → Option (List Attribute) →
      Except Failure (Option VFSCall × SnapshotApply)
  | _, some (_ :: _), _ => .error (.panic "called `Option::unwrap()` on a `None` value")
  | [], _, xattrIter => .ok (none, ⟨serialised, [], none, none, xattrIter⟩)
  | (path, file) :: fileIter, _, _ => do
    let xattrIter := file.xattrs.map fun xattrs => order.arrange xattrs.entries
    let dataIter := file.data.map SortedMap.entries
    -- Take the data to avoid wasting memory
    match ← start path { file with data := none, xattrs := none } xattrIter with
    | some (call, file, xattrIter) =>
      .ok (some call, ⟨serialised, fileIter, some (path, file), dataIter, xattrIter⟩)
    | none => nextFile order serialised fileIter dataIter none

/-- The call that puts an extent in place. -/
def extentCall (serialised : ByteFile.File) (path : Path) (extent : ℕ × Block) : Except Failure VFSCall :=
  match readExactAt serialised extent.2.location extent.2.size with
  | .ok buf => .ok (.write path (Int64.ofNat extent.1) buf)
  | .error _ => .error (.panic "Failed to read snapshot data")

/-- `SnapshotApply::next`. -/
def next (order : HashOrder) (it : SnapshotApply) : Except Failure (Option VFSCall × SnapshotApply) :=
  match it.currentFile with
  | none => nextFile order it.serialised it.fileIter it.dataIter it.xattrIter
  | some (path, file) =>
    match it.dataIter with
    | some (extent :: rest) => do
      let call ← extentCall it.serialised path extent
      .ok (some call, { it with dataIter := some rest })
    | _ => do
      match ← resume path file it.xattrIter with
      | some (call, file, xattrIter) =>
        .ok (some call, { it with currentFile := some (path, file), dataIter := none, xattrIter })
      | none => nextFile order it.serialised it.fileIter none none

/-! ### What it produces -/

def ownerCalls (path : Path) (file : File) : List VFSCall :=
  match file.uid, file.gid with
  | some uid, some gid => [.security path (.unix uid gid)]
  | _, _ => []

def sizeCalls (path : Path) (file : File) : List VFSCall :=
  match file.size with
  | .exactly size => [.truncate path size.toInt64]
  | .moreThan size => [.fallocate path 0 0 size.toInt64]
  | .unknown => []

/-- The calls for the fields that are set. -/
def metaCalls (path : Path) (file : File) : List VFSCall :=
  ownerCalls path file ++ file.mode.toList.map (.chmod path) ++ sizeCalls path file ++
    file.time.toList.map (.utimens path)

def xattrCalls (path : Path) (xattrIter : Option (List Attribute)) : Except Failure (List VFSCall) :=
  (xattrIter.getD []).mapM (xattrCall path)

def extentCalls (serialised : ByteFile.File) (path : Path) (dataIter : Option (List (ℕ × Block))) :
    Except Failure (List VFSCall) :=
  (dataIter.getD []).mapM (extentCall serialised path)

/-- A file that was there before: the first change of it comes in front of the
extents, and without a change the extents are not reached. -/
def afterFirst : List VFSCall → List VFSCall → Except Failure (List VFSCall)
  | first :: rest, writes => .ok (first :: (writes ++ rest))
  | [], [] => .ok []
  | [], _ :: _ => .error (.panic "called `Option::unwrap()` on a `None` value")

/-- All calls for a file, with its extents and attributes taken out. -/
def replayParts (serialised : ByteFile.File) (path : Path) (file : File)
    (dataIter : Option (List (ℕ × Block))) (xattrIter : Option (List Attribute)) :
    Except Failure (List VFSCall) := do
  let writes ← extentCalls serialised path dataIter
  let changes ← xattrCalls path xattrIter
  match ← creation path file with
  | some (call, file) => .ok (call :: (writes ++ (metaCalls path file ++ changes)))
  | none => afterFirst (metaCalls path file ++ changes) writes

def replayFile (order : HashOrder) (serialised : ByteFile.File) (entry : Path × File) :
    Except Failure (List VFSCall) :=
  replayParts serialised entry.1 { entry.2 with data := none, xattrs := none }
    (entry.2.data.map SortedMap.entries) (entry.2.xattrs.map fun xattrs => order.arrange xattrs.entries)

theorem replayParts_ok : replayParts serialised path file dataIter xattrIter = .ok calls ↔
    ∃ writes changes, extentCalls serialised path dataIter = .ok writes ∧
      xattrCalls path xattrIter = .ok changes ∧
      ((∃ call rest, creation path file = .ok (some (call, rest)) ∧
          calls = call :: (writes ++ (metaCalls path rest ++ changes))) ∨
        (creation path file = .ok none ∧ afterFirst (metaCalls path file ++ changes) writes = .ok calls)) := by
  simp only [replayParts, bind_ok]
  constructor
  · rintro ⟨writes, fetched, changes, named, result, made, same⟩
    refine ⟨writes, changes, fetched, named, ?_⟩
    cases result with
    | some started => exact Or.inl ⟨started.1, started.2, made, (Except.ok.inj same).symm⟩
    | none => exact Or.inr ⟨made, same⟩
  · rintro ⟨writes, changes, fetched, named, ⟨call, rest, made, rfl⟩ | ⟨made, same⟩⟩
    · exact ⟨writes, fetched, changes, named, some (call, rest), made, rfl⟩
    · exact ⟨writes, fetched, changes, named, none, made, same⟩

theorem metaCalls_eq (path : Path) (file : File) : metaCalls path file =
    match metadata path file with
    | some (call, rest) => call :: metaCalls path rest
    | none => [] := by
  obtain ⟨uid, gid, mode, size, xattrs, time, ty, data⟩ := file
  cases uid <;> cases gid <;> cases mode <;> cases size <;> cases time <;> rfl

section Drain
variable {order : HashOrder} {serialised : ByteFile.File}

/-- `order` hands out the attributes, and `calls` are all that the iterator
produces before it ends. -/
def Produces (order : HashOrder) (it : SnapshotApply) (calls : List VFSCall) : Prop :=
  Drains (Pulls (next order)) it calls

/-- The iterator between two files. -/
def between (serialised : ByteFile.File) (files : List (Path × File)) : SnapshotApply :=
  ⟨serialised, files, none, none, none⟩

theorem leads_attributes (items : List Attribute) (file : File) (bare : metadata path file = none) :
    Leads (next order) ⟨serialised, files, some (path, file), none, some items⟩
      (items.mapM (xattrCall path) = .ok ·) (between serialised files) := by
  induction items generalizing file with
  | nil =>
    have alike : next order ⟨serialised, files, some (path, file), none, some []⟩ =
        next order (between serialised files) := by
      simp [next, resume, bare, between]
    exact (Leads.of_alike alike).congr fun _ => mapM_nil_ok.symm
  | cons item rest ih =>
    cases named : xattrCall path item with
    | error error =>
      have failed : next order ⟨serialised, files, some (path, file), none, some (item :: rest)⟩ =
          .error error := by
        simp [next, resume, bare, named]
      exact (Leads.of_error failed).congr fun _ => by rw [mapM_cons_ok, named]; simp
    | ok call =>
      have pulled : next order ⟨serialised, files, some (path, file), none, some (item :: rest)⟩ =
          .ok (some call, ⟨serialised, files, some (path, { file with uid := none, gid := none }), none,
            some rest⟩) := by
        simp [next, resume, bare, named]
      have still : metadata path { file with uid := none, gid := none } = none := by
        unfold metadata at bare ⊢
        split at bare
        · cases bare
        · exact bare
      exact (Leads.cons pulled (ih _ still)).congr fun _ => by rw [mapM_cons_ok, named]; simp

/-- The fields of the current file, then its attributes, then the next file. -/
theorem leads_resume (file : File) (xattrIter : Option (List Attribute)) :
    Leads (next order) ⟨serialised, files, some (path, file), none, xattrIter⟩
      (fun calls => ∃ changes, xattrCalls path xattrIter = .ok changes ∧
        calls = metaCalls path file ++ changes) (between serialised files) := by
  generalize length : (metaCalls path file).length = count
  induction count generalizing file with
  | zero =>
    have bare : metadata path file = none := by
      have split := metaCalls_eq path file
      cases left : metadata path file with
      | none => rfl
      | some head => rw [split, left] at length; cases length
    rw [List.eq_nil_of_length_eq_zero length]
    cases xattrIter with
    | none =>
      have alike : next order ⟨serialised, files, some (path, file), none, none⟩ =
          next order (between serialised files) := by
        simp [next, resume, bare, between]
      exact (Leads.of_alike alike).congr fun _ => by
        rw [xattrCalls, Option.getD_none]; simp only [mapM_nil_ok, List.nil_append, exists_eq_left]
    | some items => exact (leads_attributes items file bare).congr fun _ => by simp [xattrCalls]
  | succ count ih =>
    have split := metaCalls_eq path file
    cases left : metadata path file with
    | none => rw [split, left] at length; cases length
    | some head =>
      obtain ⟨call, rest⟩ := head
      rw [left] at split
      have pulled : next order ⟨serialised, files, some (path, file), none, xattrIter⟩ =
          .ok (some call, ⟨serialised, files, some (path, rest), none, xattrIter⟩) := by
        simp [next, resume, left]
      have shorter : (metaCalls path rest).length = count := by
        rw [split] at length
        exact Nat.succ.inj length
      rw [split]
      exact (Leads.cons pulled (ih rest shorter)).congr fun _ => by simp

/-- The extents of the current file come before anything else. -/
theorem leads_extents (dataIter : Option (List (ℕ × Block))) :
    Leads (next order) ⟨serialised, files, some (path, file), dataIter, xattrIter⟩
      (extentCalls serialised path dataIter = .ok ·)
      ⟨serialised, files, some (path, file), none, xattrIter⟩ := by
  cases dataIter with
  | none => exact (Leads.of_alike rfl).congr fun _ => mapM_nil_ok.symm
  | some extents =>
    induction extents with
    | nil =>
      have alike : next order ⟨serialised, files, some (path, file), some [], xattrIter⟩ =
          next order ⟨serialised, files, some (path, file), none, xattrIter⟩ := rfl
      exact (Leads.of_alike alike).congr fun _ => mapM_nil_ok.symm
    | cons extent rest ih =>
      cases read : extentCall serialised path extent with
      | error error =>
        have failed : next order ⟨serialised, files, some (path, file), some (extent :: rest), xattrIter⟩ =
            .error error := by
          simp [next, read]
        exact (Leads.of_error failed).congr fun _ => by
          rw [extentCalls, Option.getD_some, mapM_cons_ok, read]; simp
      | ok call =>
        have pulled : next order ⟨serialised, files, some (path, file), some (extent :: rest), xattrIter⟩ =
            .ok (some call, ⟨serialised, files, some (path, file), some rest, xattrIter⟩) := by
          simp [next, read]
        exact (Leads.cons pulled ih).congr fun calls => by
          show _ ↔ (extent :: rest).mapM (extentCall serialised path) = .ok calls
          rw [mapM_cons_ok, read]; simp [extentCalls]

/-- What follows the first call for a file: extents, fields, attributes. -/
theorem leads_started (file : File) (dataIter : Option (List (ℕ × Block)))
    (xattrIter : Option (List Attribute))
    (pulled : next order it = .ok (some call, ⟨serialised, files, some (path, file), dataIter, xattrIter⟩)) :
    Leads (next order) it (fun calls => ∃ writes changes, extentCalls serialised path dataIter = .ok writes ∧
      xattrCalls path xattrIter = .ok changes ∧
      calls = call :: (writes ++ (metaCalls path file ++ changes))) (between serialised files) := by
  refine (Leads.cons pulled ((leads_extents dataIter).trans (leads_resume file xattrIter))).congr fun calls => ?_
  constructor
  · rintro ⟨_, ⟨writes, _, fetched, ⟨changes, named, rfl⟩, rfl⟩, rfl⟩
    exact ⟨writes, changes, fetched, named, rfl⟩
  · rintro ⟨writes, changes, fetched, named, rfl⟩
    exact ⟨_, ⟨writes, _, fetched, ⟨changes, named, rfl⟩, rfl⟩, rfl⟩

/-- The fields and then the attributes, one at a time. -/
theorem resume_cases (path : Path) (file : File) (xattrIter : Option (List Attribute)) :
    match resume path file xattrIter with
    | .ok (some (call, rest, later)) => ∃ front, metaCalls path file ++ front = call :: metaCalls path rest ∧
        ∀ changes, xattrCalls path xattrIter = .ok changes ↔
          ∃ others, xattrCalls path later = .ok others ∧ changes = front ++ others
    | .ok none => metaCalls path file = [] ∧ xattrCalls path xattrIter = .ok []
    | .error _ => ∀ changes, xattrCalls path xattrIter ≠ .ok changes := by
  have split := metaCalls_eq path file
  unfold resume
  cases left : metadata path file with
  | some head =>
    rw [left] at split
    exact ⟨[], by simp [split], by simp⟩
  | none =>
    rw [left] at split
    rcases xattrIter with _ | _ | ⟨item, items⟩
    · exact ⟨split, rfl⟩
    · exact ⟨split, rfl⟩
    · have bare : metaCalls path { file with uid := none, gid := none } = [] := by
        simp only [metaCalls, List.append_eq_nil_iff] at split ⊢
        exact ⟨⟨⟨rfl, split.1.1.2⟩, split.1.2⟩, split.2⟩
      simp only [xattrCalls, Option.getD_some]
      cases named : xattrCall path item with
      | error error =>
        intro changes
        rw [ne_eq, mapM_cons_ok, named]
        simp
      | ok call =>
        refine ⟨[call], by rw [split, bare]; rfl, fun changes => ?_⟩
        rw [mapM_cons_ok, named]
        simp

/-- What is left after the first call is what the file asks for without it. -/
theorem replayParts_of_start (started : start path file xattrIter = .ok (some (call, rest, later))) :
    replayParts serialised path file dataIter xattrIter = .ok calls ↔
      ∃ writes changes, extentCalls serialised path dataIter = .ok writes ∧
        xattrCalls path later = .ok changes ∧ calls = call :: (writes ++ (metaCalls path rest ++ changes)) := by
  rw [replayParts_ok]
  obtain ⟨result, made, resumed⟩ := bind_ok.mp started
  rw [made]
  cases result with
  | some head =>
    obtain ⟨first, remaining⟩ := head
    cases resumed
    simp
  | none =>
    have cases := resume_cases path file xattrIter
    rw [show resume path file xattrIter = _ from resumed] at cases
    obtain ⟨front, whole, split⟩ := cases
    have asked (others : List VFSCall) :
        metaCalls path file ++ (front ++ others) = call :: (metaCalls path rest ++ others) := by
      rw [← List.append_assoc, whole, List.cons_append]
    constructor
    · rintro ⟨writes, changes, fetched, named, ⟨_, _, impossible, _⟩ | ⟨-, same⟩⟩
      · cases impossible
      · obtain ⟨others, named', rfl⟩ := (split changes).mp named
        rw [asked] at same
        exact ⟨writes, others, fetched, named', (Except.ok.inj same).symm⟩
    · rintro ⟨writes, others, fetched, named, rfl⟩
      refine ⟨writes, front ++ others, fetched, (split _).mpr ⟨others, named, rfl⟩, Or.inr ⟨rfl, ?_⟩⟩
      rw [asked]
      rfl

theorem extentCalls_eq_nil : extentCalls serialised path dataIter = .ok [] ↔ dataIter.getD [] = [] := by
  unfold extentCalls
  cases dataIter.getD [] with
  | nil => exact iff_of_true rfl rfl
  | cons extent rest =>
    rw [mapM_cons_ok]
    simp

/-- Nothing is asked for, so there must be nothing to write. -/
theorem replayParts_of_idle (idle : start path file xattrIter = .ok none) :
    replayParts serialised path file dataIter xattrIter = .ok calls ↔
      dataIter.getD [] = [] ∧ calls = [] := by
  rw [replayParts_ok]
  obtain ⟨result, made, resumed⟩ := bind_ok.mp idle
  rw [made]
  cases result with
  | some head => cases resumed
  | none =>
    have cases := resume_cases path file xattrIter
    rw [show resume path file xattrIter = _ from resumed] at cases
    rw [cases.1, cases.2, ← extentCalls_eq_nil]
    constructor
    · rintro ⟨writes, changes, fetched, same, ⟨_, _, impossible, _⟩ | ⟨-, replayed⟩⟩
      · cases impossible
      · cases same
        cases writes with
        | nil => exact ⟨fetched, (Except.ok.inj replayed).symm⟩
        | cons call rest => cases replayed
    · rintro ⟨fetched, rfl⟩
      exact ⟨[], [], fetched, rfl, Or.inr ⟨rfl, rfl⟩⟩

/-- A panic on the first call is a panic of the file. -/
theorem not_replayParts_of_error (failed : start path file xattrIter = .error error) :
    replayParts serialised path file dataIter xattrIter ≠ .ok calls := by
  intro replayed
  obtain ⟨writes, changes, -, named, ⟨call, rest, made, -⟩ | ⟨made, -⟩⟩ := replayParts_ok.mp replayed
  · rw [start, made] at failed
    cases failed
  · have cases := resume_cases path file xattrIter
    rw [start, made] at failed
    rw [show resume path file xattrIter = _ from failed] at cases
    exact cases changes named

/-- The iterator between two files does what the first of them asks for. -/
theorem leads_file (path : Path) (file : File) :
    Leads (next order) (between serialised ((path, file) :: files))
      (replayFile order serialised (path, file) = .ok ·) (between serialised files) := by
  have first : next order (between serialised ((path, file) :: files)) =
      nextFile order serialised ((path, file) :: files) none none := rfl
  unfold nextFile at first
  dsimp only at first
  unfold replayFile
  cases started : start path { file with data := none, xattrs := none }
      (file.xattrs.map fun xattrs => order.arrange xattrs.entries) with
  | error error =>
    rw [started] at first
    exact (Leads.of_error first).congr fun calls => iff_of_false id (not_replayParts_of_error started)
  | ok result =>
    rw [started] at first
    cases result with
    | some head => exact (leads_started _ _ _ first).congr fun calls => (replayParts_of_start started).symm
    | none =>
      have first : _ = nextFile order serialised files (file.data.map SortedMap.entries) none := first
      generalize file.data.map SortedMap.entries = dataIter at first ⊢
      rcases dataIter with _ | _ | ⟨extent, extents⟩
      · exact (Leads.of_alike first).congr fun calls => by rw [replayParts_of_idle started]; simp
      · have alike : nextFile order serialised files (some []) none = next order (between serialised files) := by
          cases files <;> rfl
        exact (Leads.of_alike (first.trans alike)).congr fun calls => by
          rw [replayParts_of_idle started]; simp
      · have stuck : nextFile order serialised files (some (extent :: extents)) none =
            .error (.panic "called `Option::unwrap()` on a `None` value") := by
          cases files <;> rfl
        exact (Leads.of_error (first.trans stuck)).congr fun calls => by
          rw [replayParts_of_idle started]; simp

/-- The iterator produces what the files ask for, one after the other, and ends;
where a file makes it panic it produces nothing to the end. -/
theorem produces_between : Produces order (between serialised files) calls ↔
    ∃ parts, files.mapM (replayFile order serialised) = .ok parts ∧ calls = parts.flatten := by
  induction files generalizing calls with
  | nil =>
    have ended : next order (between serialised []) = .ok (none, between serialised []) := rfl
    rw [Produces, drains_done ended]
    simp only [mapM_nil_ok, exists_eq_left, List.flatten_nil]
  | cons entry rest ih =>
    rw [Produces, leads_file entry.1 entry.2 calls]
    simp only [mapM_cons_ok]
    constructor
    · rintro ⟨part, later, replayed, rfl, produces⟩
      obtain ⟨parts, others, rfl⟩ := ih.mp produces
      exact ⟨part :: parts, ⟨part, parts, replayed, others, rfl⟩, rfl⟩
    · rintro ⟨_, ⟨part, parts, replayed, others, rfl⟩, rfl⟩
      exact ⟨part, parts.flatten, replayed, rfl, ih.mpr ⟨parts, others, rfl⟩⟩

theorem produces_apply {s : Snapshot} : Produces order (apply s) calls ↔
    ∃ parts, s.files.entries.mapM (replayFile order s.serialised) = .ok parts ∧ calls = parts.flatten :=
  produces_between

end Drain

end Fsyncer.SnapshotReplay
