import Fsyncer.FuseLl
import Fsyncer.Base.Interleaving

/-! The primary path of an inode: the parent and the name under which it was
first looked up. Requests that move or remove names rewrite it before they make
the system call, and compare parents by address. -/
namespace Fsyncer.FusePaths
open FileTree (Name)
open FuseHost FuseLl Machine Interleaving

def getChild (w : World) (parent : Inode) (name : Name) : Except Fault (Except Errno Nat × World) :=
  match w.host.fstatat parent.fd name with
  | (.error errno, host) => .ok (.error errno, w.withHost host)
  | (.ok attr, host) =>
    match w.fs.inodes attr.id with
    | some ptr => .ok (.ok ptr, w.withHost host)
    | none => .error .fileWasNotLookedUp

/-- The old path when the name is the child's primary path; zero when the child has another or none. -/
def replacePath (w : World) (parent : Nat) (inode : Inode) (name : Name) (newpath : Option (Nat × Name)) :
    Except Fault (Except Nat (Nat × Name) × World) := do
  match ← getChild w inode name with
  | (.error errno, w) => return (.error errno, w)
  | (.ok ptr, w) =>
    match w.fs.boxes ptr with
    | none => .error .dangling
    | some child =>
      match child.path with
      | none => return (.error 0, w)
      | some primary =>
        if !isStr name then .error .notUtf8
        else if primary = (w.fs.address parent, name) then
          return (.ok primary, w.withFs (w.fs.setBox ptr (some { child with path := newpath })))
        else return (.error 0, w)

/-- A rename once the path of the moved file is rewritten; the parent of the old name stands in for that of
the new one. -/
def overwrite (w : World) (parent : Nat) (inoOp : Inode) (name newname : Name) : Outcome := do
  let inoNp ← w.fs.getInode parent
  match ← replacePath w parent inoNp newname none with
  | (.error (code + 1), w) =>
    if code + 1 ≠ enoent then return (.err (code + 1), w)
    else return w.status (w.host.renameat inoOp.fd name inoNp.fd newname)
  | (_, w) => return w.status (w.host.renameat inoOp.fd name inoNp.fd newname)

/-- The old name stands in for the new one in the path. -/
def rename (w : World) (parent : Nat) (name : Name) (newparent : Nat) (newname : Name) (flags : UInt32) : Outcome :=
  if flags ≠ 0 then .ok (.err einval, w)
  else do
    let inoOp ← w.fs.getInode parent
    if !isStr name then .error .notUtf8
    else match ← replacePath w parent inoOp name (some (newparent, name)) with
      | (.error (code + 1), w) => return (.err (code + 1), w)
      | (_, w) => overwrite w parent inoOp name newname

def unlink (w : World) (parent : Nat) (name : Name) : Outcome := do
  let inoP ← w.fs.getInode parent
  match ← replacePath w parent inoP name none with
  | (.error (code + 1), w) => return (.err (code + 1), w)
  | (_, w) => return w.status (w.host.unlinkat inoP.fd name)

def rmdir (w : World) (parent : Nat) (name : Name) : Outcome := do
  let inoP ← w.fs.getInode parent
  match ← replacePath w parent inoP name none with
  | (.error 0, _) => .error .mustHaveAPath
  | (.error code, w) => return (.err code, w)
  | (.ok _, w) => return w.status (w.host.unlinkat inoP.fd name)

inductive Request where
  | lookup (parent : Nat) (name : Name)
  | rename (parent : Nat) (name : Name) (newparent : Nat) (newname : Name)
  | unlink (parent : Nat) (name : Name)
  | rmdir (parent : Nat) (name : Name)

def serve (w : World) : Request → Outcome
  | .lookup parent name => w.lookup parent name
  | .rename parent name newparent newname => rename w parent name newparent newname 0
  | .unlink parent name => unlink w parent name
  | .rmdir parent name => rmdir w parent name

/-- The directory that the parent of a path stands for. -/
def locate (fs : Fs) (ptr : Nat) : Option SrcId :=
  if ptr = fuseRootId ∨ ptr = fs.rootAt then some fs.root.srcId else (fs.boxes ptr).map Inode.srcId

/-- Primary paths lead to their inodes. -/
def Tracks (w : World) : Prop :=
  ∀ id ptr inode parent name, w.fs.inodes id = some ptr → w.fs.boxes ptr = some inode →
    inode.path = some (parent, name) → ∃ dir, locate w.fs parent = some dir ∧ w.host.dirs dir name = some id

/-- The table has the same inodes with the same paths. -/
def SamePaths (w after : World) : Prop :=
  w.fs.inodes = after.fs.inodes ∧ ∀ ptr, (w.fs.boxes ptr).map Inode.path = (after.fs.boxes ptr).map Inode.path

def Failed (reply : FuseReply) : Prop := ∃ code ≠ 0, reply = .err code

/-- The box has the path that `replace_path` looks for. -/
def Addressed (fs : Fs) (parent : Nat) (name : Name) (ptr : Nat) : Prop :=
  ∃ child, fs.boxes ptr = some child ∧ child.path = some (fs.address parent, name)

/-- The box has a path that stands for the name in the directory. -/
def NamedAt (fs : Fs) (dir : SrcId) (name : Name) (ptr : Nat) : Prop :=
  ∃ child parent, fs.boxes ptr = some child ∧ child.path = some (parent, name) ∧ locate fs parent = some dir

/-- The system call that takes a name away goes with the path that was cleared for it: a path of that name is
cleared when the call is carried out, and no path is cleared when it is refused. -/
structure Settled (w : World) (parent : Nat) (inode : Inode) (name : Name) (found : Stat)
    (call : Except Errno Unit) : Prop where
  carried : call = .ok () → ∀ dir ptr, w.host.descriptor inode.fd = some dir → NamedAt w.fs dir name ptr →
    Addressed w.fs parent name ptr
  refused : ∀ errno ptr, call = .error errno → w.fs.inodes found.id = some ptr → ¬ Addressed w.fs parent name ptr

def Removable (w : World) (parent : Nat) (name : Name) : Prop :=
  ∀ inode found host, w.fs.getInode parent = .ok inode → w.host.fstatat inode.fd name = (.ok found, host) →
    Settled w parent inode name found (host.unlinkat inode.fd name).1

def Unnamed (w : World) (inode : Inode) (name : Name) : Prop :=
  ∀ dir ptr, w.host.descriptor inode.fd = some dir → ¬ NamedAt w.fs dir name ptr

/-- What the new name leads to allows for what the system call does. -/
def Overwritable (w : World) (parent : Nat) (inode : Inode) (name newname : Name) (answer : Except Errno Stat)
    (call : Except Errno Unit) : Prop :=
  match answer with
  | .ok other => (call = .ok () → Unnamed w inode name) ∧ Settled w parent inode newname other call
  | .error errno => errno = enoent → call = .ok () → Unnamed w inode name ∧ Unnamed w inode newname

/-- The old name is not the primary path of the file, and the new name is free or settled. -/
def Movable (w : World) (parent : Nat) (name newname : Name) : Prop :=
  ∀ inode found host, w.fs.getInode parent = .ok inode → w.host.fstatat inode.fd name = (.ok found, host) →
    (∀ ptr, w.fs.inodes found.id = some ptr → ¬ Addressed w.fs parent name ptr) ∧
    ∀ answer last, host.fstatat inode.fd newname = (answer, last) →
      Overwritable w parent inode name newname answer (last.renameat inode.fd name inode.fd newname).1

/-- What a request has to meet for the paths to keep up with the tree. -/
def Fine (w : World) : Request → Prop
  | .lookup parent name => ∀ inode newfd attr host, w.fs.getInode parent = .ok inode →
    w.resolve inode name = (.ok (newfd, attr), host) → w.fs.inodes attr.id = none →
    w.host.dirs inode.srcId name = some attr.id
  | .rename parent name _ newname => Movable w parent name newname
  | .unlink parent name => Removable w parent name
  | .rmdir parent name => Removable w parent name

variable {w next after : World} {fs fs' : Fs} {host last : Host} {inode child : Inode} {id id' dir : SrcId}

/-- The boxes that the table owns, apart from the root. -/
structure Table (fs : Fs) : Prop where
  boxed : ∀ id ptr, fs.inodes id = some ptr → ∃ inode, fs.boxes ptr = some inode
  below : ∀ ptr inode, fs.boxes ptr = some inode → fuseRootId < ptr ∧ fs.rootAt ≠ ptr ∧ ptr < fs.heap
  heap : fuseRootId < fs.heap ∧ fs.rootAt < fs.heap

/-- Paths may have been cleared; nothing else that paths are read with has changed. -/
structure Fewer (fs fs' : Fs) : Prop where
  inodes : fs'.inodes = fs.inodes
  boxes : ∀ ptr child', fs'.boxes ptr = some child' →
    ∃ child, fs.boxes ptr = some child ∧ (child'.path = child.path ∨ child'.path = none)
  locate : ∀ ptr, locate fs' ptr = locate fs ptr

theorem Fewer.refl (fs : Fs) : Fewer fs fs := ⟨rfl, fun _ child held => ⟨child, held, .inl rfl⟩, fun _ => rfl⟩

theorem Fewer.namedAt (fewer : Fewer fs fs') (named : NamedAt fs' dir name ptr) : NamedAt fs dir name ptr := by
  obtain ⟨child', parent, held, path, located⟩ := named
  obtain ⟨child, was, same | cleared⟩ := fewer.boxes ptr child' held
  · exact ⟨child, parent, was, same.symm.trans path, (fewer.locate parent).symm.trans located⟩
  · cases cleared.symm.trans path

/-- A box whose path is replaced keeps its place. -/
theorem locate_setBox (inode : Inode) (held : fs.boxes ptr = some child) (same : inode.srcId = child.srcId)
    (other : Nat) :
    locate (fs.setBox ptr (some inode)) other = locate fs other := by
  have ids : ((fs.setBox ptr (some inode)).boxes other).map Inode.srcId = (fs.boxes other).map Inode.srcId := by
    simp only [Fs.setBox]
    split
    · rename_i equal
      simp [equal, held, same]
    · rfl
  simp only [locate, ids]
  rfl

theorem fewer_clear (held : fs.boxes ptr = some child) :
    Fewer fs (fs.setBox ptr (some { child with path := none })) where
  inodes := rfl
  boxes other child' is := by
    simp only [Fs.setBox] at is
    split at is
    · rename_i same
      cases is
      exact ⟨child, same ▸ held, .inr rfl⟩
    · exact ⟨child', is, .inl rfl⟩
  locate other := locate_setBox { child with path := none } held rfl other

/-- A path says where its inode is. -/
theorem Tracks.entry (tracks : Tracks w) (found : w.fs.inodes id = some ptr) (named : NamedAt w.fs dir name ptr) :
    w.host.dirs dir name = some id := by
  obtain ⟨child, parent, held, path, located⟩ := named
  obtain ⟨dir', located', entry⟩ := tracks id ptr child parent name found held path
  cases located.symm.trans located'
  exact entry

/-- The paths that are left have to lead where they did. -/
theorem Tracks.fewer (tracks : Tracks w) (fewer : Fewer w.fs fs')
    (kept : ∀ dir name id ptr, w.fs.inodes id = some ptr → NamedAt fs' dir name ptr →
      w.host.dirs dir name = some id → host.dirs dir name = some id) : Tracks ⟨fs', host⟩ := by
  intro id ptr child' parent name found held path
  obtain ⟨child, was, same | cleared⟩ := fewer.boxes ptr child' held
  · have before : w.fs.inodes id = some ptr := by rw [← fewer.inodes]; exact found
    obtain ⟨dir, located, entry⟩ := tracks id ptr child parent name before was (same.symm.trans path)
    have located' : locate fs' parent = some dir := (fewer.locate parent).trans located
    exact ⟨dir, located', kept dir name id ptr before ⟨child', parent, held, path, located'⟩ entry⟩
  · cases cleared.symm.trans path

theorem Tracks.withHost (tracks : Tracks w) (same : host.dirs = w.host.dirs) : Tracks (w.withHost host) :=
  tracks.fewer (.refl w.fs) fun _ _ _ _ _ _ entry => by rw [same]; exact entry

/-- What `replace_path` can do. -/
theorem replacePath_cases (done : replacePath w parent inode name newpath = .ok (result, after)) :
    (∃ errno host, w.host.fstatat inode.fd name = (.error errno, host) ∧ result = .error errno.1 ∧
      after = w.withHost host) ∨
    ∃ found host ptr child, w.host.fstatat inode.fd name = (.ok found, host) ∧ w.fs.inodes found.id = some ptr ∧
      w.fs.boxes ptr = some child ∧
      ((child.path = some (w.fs.address parent, name) ∧ (∃ primary, result = .ok primary) ∧
        after = ⟨w.fs.setBox ptr (some { child with path := newpath }), host⟩) ∨
      (child.path ≠ some (w.fs.address parent, name) ∧ result = .error 0 ∧ after = w.withHost host)) := by
  obtain ⟨⟨answer, next⟩, got, done⟩ := bind_ok.mp done
  simp only [getChild] at got
  split at got
  · rename_i errno host failed
    cases got
    cases done
    exact .inl ⟨errno, host, failed, rfl, rfl⟩
  · rename_i found host stat
    split at got
    · rename_i ptr listed
      cases got
      dsimp only at done
      split at done
      · cases done
      · rename_i child held
        refine .inr ⟨found, host, ptr, child, stat, listed, held, ?_⟩
        split at done
        · rename_i pathless
          cases done
          exact .inr ⟨by simp [pathless], rfl, rfl⟩
        · rename_i primary path
          split at done
          · cases done
          · split at done
            · rename_i same
              cases done
              exact .inl ⟨path.trans (congrArg some same), ⟨primary, rfl⟩, rfl⟩
            · rename_i different
              cases done
              exact .inr ⟨fun same => different (Option.some.inj (path.symm.trans same)), rfl, rfl⟩
    · cases got

theorem Table.setBox (table : Table fs) (inode : Inode) (held : fs.boxes ptr = some child) :
    Table (fs.setBox ptr (some inode)) where
  boxed id other found := by
    simp only [Fs.setBox]
    split
    · exact ⟨inode, rfl⟩
    · exact table.boxed id other found
  below other box is := by
    simp only [Fs.setBox] at is
    split at is
    · rename_i same
      exact same ▸ table.below ptr child held
    · exact table.below other box is
  heap := table.heap

/-- The paths still lead to their inodes, and a request that fails has not touched them. -/
structure Kept (w : World) (reply : FuseReply) (after : World) : Prop where
  table : Table after.fs
  tracks : Tracks after
  paths : Failed reply → SamePaths w after

theorem SamePaths.of_fs (same : after.fs = w.fs) : SamePaths w after := by
  rw [SamePaths, same]
  exact ⟨rfl, fun _ => rfl⟩

/-- A request that ends with a system call after it has cleared paths. -/
theorem kept_status (tracks : Tracks w) (table : Table after.fs) (fewer : Fewer w.fs after.fs)
    (call : Except Errno Unit × Host)
    (carried : call.1 = .ok () → ∀ dir name id ptr, w.fs.inodes id = some ptr → NamedAt after.fs dir name ptr →
      w.host.dirs dir name = some id → call.2.dirs dir name = some id)
    (refused : ∀ errno, call.1 = .error errno → call.2.dirs = w.host.dirs ∧ after.fs = w.fs) :
    Kept w (after.status call).1 (after.status call).2 := by
  obtain ⟨result, host⟩ := call
  cases result with
  | ok value =>
    refine ⟨table, tracks.fewer fewer (carried rfl), ?_⟩
    rintro ⟨code, nonzero, same⟩
    cases same
    exact absurd rfl nonzero
  | error errno =>
    obtain ⟨dirs, unchanged⟩ := refused errno rfl
    refine ⟨table, tracks.fewer fewer ?_, fun _ => .of_fs unchanged⟩
    intro dir name id ptr _ _ entry
    rw [dirs]
    exact entry

/-- The path of a box, if it is the one asked for, has been cleared. -/
def ClearedAt (fs : Fs) (parent : Nat) (name : Name) (ptr : Nat) (child : Inode) (fs' : Fs) : Prop :=
  (child.path = some (fs.address parent, name) ∧ fs' = fs.setBox ptr (some { child with path := none })) ∨
  (child.path ≠ some (fs.address parent, name) ∧ fs' = fs)

theorem ClearedAt.fewer (cleared : ClearedAt fs parent name ptr child fs') (held : fs.boxes ptr = some child) :
    Fewer fs fs' := by
  rcases cleared with ⟨-, rfl⟩ | ⟨-, rfl⟩
  · exact fewer_clear held
  · exact .refl _

theorem ClearedAt.table (cleared : ClearedAt fs parent name ptr child fs') (held : fs.boxes ptr = some child)
    (table : Table fs) : Table fs' := by
  rcases cleared with ⟨-, rfl⟩ | ⟨-, rfl⟩
  · exact table.setBox _ held
  · exact table

theorem ClearedAt.unaddressed (cleared : ClearedAt fs parent name ptr child fs') (held : fs.boxes ptr = some child)
    (unaddressed : ¬ Addressed fs parent name ptr) : fs' = fs := by
  rcases cleared with ⟨path, -⟩ | ⟨-, same⟩
  · exact absurd ⟨child, held, path⟩ unaddressed
  · exact same

/-- When the call is carried out, no path has the name it takes away. -/
theorem ClearedAt.unnamed (cleared : ClearedAt w.fs parent name ptr child fs') (held : w.fs.boxes ptr = some child)
    (tracks : Tracks w) (entry : w.host.dirs dir name = some id) (listed : w.fs.inodes id = some ptr)
    (addressed : NamedAt w.fs dir name ptr → Addressed w.fs parent name ptr)
    (found : w.fs.inodes id' = some other) : ¬ NamedAt fs' dir name other := by
  intro named
  have before := (cleared.fewer held).namedAt named
  have same := tracks.entry found before
  cases entry.symm.trans same
  cases listed.symm.trans found
  obtain ⟨child', held', path⟩ := addressed before
  cases held.symm.trans held'
  rcases cleared with ⟨-, rfl⟩ | ⟨different, -⟩
  · obtain ⟨box, parent, is, path, -⟩ := named
    simp only [Fs.setBox, if_true, Option.some.injEq] at is
    rw [← is] at path
    cases path
  · exact different path

/-- A request that found nothing out has changed nothing. -/
theorem kept_withHost (tracks : Tracks w) (table : Table w.fs) (same : host.dirs = w.host.dirs) (reply : FuseReply) :
    Kept w reply (w.withHost host) :=
  ⟨table, tracks.withHost same, fun _ => .of_fs rfl⟩

section Settled
variable (tracks : Tracks w) (table : Table w.fs) (found : w.host.fstatat inode.fd name = (.ok stat, host))
  (listed : w.fs.inodes stat.id = some ptr) (held : w.fs.boxes ptr = some child)
  (cleared : ClearedAt w.fs parent name ptr child fs')
include tracks table found listed held cleared

theorem unlinkat_kept (settled : Settled w parent inode name stat (host.unlinkat inode.fd name).1)
    (ends : World.status ⟨fs', host⟩ (host.unlinkat inode.fd name) = (reply, after)) : Kept w reply after := by
  suffices kept : Kept w (World.status ⟨fs', host⟩ (host.unlinkat inode.fd name)).1
      (World.status ⟨fs', host⟩ (host.unlinkat inode.fd name)).2 by rwa [ends] at kept
  obtain ⟨dirs, fds⟩ := w.host.fstatat_frame inode.fd name
  obtain ⟨dir, opened, entry⟩ := Host.fstatat_ok found
  simp only [found] at dirs fds
  refine kept_status tracks (cleared.table held table) (cleared.fewer held) _ ?_ ?_
  · intro carried dir' name' id other listed' named same
    obtain ⟨value, last, call⟩ : ∃ value last, host.unlinkat inode.fd name = (.ok value, last) :=
      ⟨(), (host.unlinkat inode.fd name).2, by rw [← carried]⟩
    obtain ⟨dir'', opened', gone⟩ := Host.unlinkat_ok call
    rw [Host.descriptor_congr fds, opened] at opened'
    cases opened'
    have unnamed := cleared.unnamed held tracks entry listed (settled.carried carried dir ptr opened) listed'
    rw [call, gone, Host.dirs_setEntry, if_neg, dirs]
    · exact same
    · rintro ⟨rfl, rfl⟩
      exact unnamed named
  · intro errno refused
    obtain ⟨last, call⟩ : ∃ last, host.unlinkat inode.fd name = (.error errno, last) :=
      ⟨(host.unlinkat inode.fd name).2, by rw [← refused]⟩
    refine ⟨?_, cleared.unaddressed held (settled.refused errno ptr refused listed)⟩
    rw [call, ← dirs]
    exact (Host.sys_error call).1

end Settled

/-- The part that `unlink` and `rmdir` share. -/
theorem removal_kept (tracks : Tracks w) (table : Table w.fs) (removable : Removable w parent name)
    (known : w.fs.getInode parent = .ok inode) (replaced : replacePath w parent inode name none = .ok (result, next)) :
    (∀ code, result = .error (code + 1) → ∀ reply, Kept w reply next) ∧
    ((∀ code, result ≠ .error (code + 1)) → ∀ reply after,
      next.status (next.host.unlinkat inode.fd name) = (reply, after) → Kept w reply after) := by
  obtain ⟨errno, host, failed, rfl, rfl⟩ | ⟨stat, host, ptr, child, found, listed, held, outcome⟩ :=
    replacePath_cases replaced
  · have frame := w.host.fstatat_frame inode.fd name
    rw [failed] at frame
    refine ⟨fun _ _ reply => kept_withHost tracks table frame.1 reply, fun never => ?_⟩
    obtain ⟨code, positive⟩ := Nat.exists_eq_succ_of_ne_zero errno.2
    exact absurd (congrArg Except.error positive) (never code)
  · have settled := removable inode stat host known found
    rcases outcome with ⟨path, ⟨primary, rfl⟩, rfl⟩ | ⟨other, rfl, rfl⟩
    · exact ⟨nofun, fun _ reply after => unlinkat_kept tracks table found listed held (.inl ⟨path, rfl⟩) settled⟩
    · exact ⟨nofun, fun _ reply after => unlinkat_kept tracks table found listed held (.inr ⟨other, rfl⟩) settled⟩

theorem unlink_kept (tracks : Tracks w) (table : Table w.fs) (removable : Removable w parent name)
    (done : unlink w parent name = .ok (reply, after)) : Kept w reply after := by
  obtain ⟨inode, known, done⟩ := bind_ok.mp done
  obtain ⟨⟨result, next⟩, replaced, done⟩ := bind_ok.mp done
  obtain ⟨missed, reached⟩ := removal_kept tracks table removable known replaced
  cases result with
  | ok primary => exact reached nofun reply after (Except.ok.inj done)
  | error code =>
    cases code with
    | zero => exact reached nofun reply after (Except.ok.inj done)
    | succ code =>
      cases done
      exact missed code rfl _

theorem rmdir_kept (tracks : Tracks w) (table : Table w.fs) (removable : Removable w parent name)
    (done : rmdir w parent name = .ok (reply, after)) : Kept w reply after := by
  obtain ⟨inode, known, done⟩ := bind_ok.mp done
  obtain ⟨⟨result, next⟩, replaced, done⟩ := bind_ok.mp done
  obtain ⟨missed, reached⟩ := removal_kept tracks table removable known replaced
  cases result with
  | ok primary => exact reached nofun reply after (Except.ok.inj done)
  | error code =>
    cases code with
    | zero => cases done
    | succ code =>
      cases done
      exact missed code rfl _

theorem renameat_kept (tracks : Tracks w) (table : Table fs') (fewer : Fewer w.fs fs')
    (dirs : last.dirs = w.host.dirs) (fds : last.fds = w.host.fds)
    (carried : (last.renameat inode.fd name inode.fd newname).1 = .ok () →
      ∀ dir id ptr, w.host.descriptor inode.fd = some dir → w.fs.inodes id = some ptr →
        ¬ NamedAt fs' dir name ptr ∧ ¬ NamedAt fs' dir newname ptr)
    (refused : ∀ errno, (last.renameat inode.fd name inode.fd newname).1 = .error errno → fs' = w.fs)
    (ends : World.status ⟨fs', last⟩ (last.renameat inode.fd name inode.fd newname) = (reply, after)) :
    Kept w reply after := by
  suffices kept : Kept w (World.status ⟨fs', last⟩ (last.renameat inode.fd name inode.fd newname)).1
      (World.status ⟨fs', last⟩ (last.renameat inode.fd name inode.fd newname)).2 by rwa [ends] at kept
  refine kept_status tracks table fewer _ ?_ ?_
  · intro done dir' name' id ptr listed named same
    obtain ⟨value, final, call⟩ : ∃ value final, last.renameat inode.fd name inode.fd newname = (.ok value, final) :=
      ⟨(), (last.renameat inode.fd name inode.fd newname).2, by rw [← done]⟩
    obtain ⟨dir, moved, opened, -, unchanged | renamed⟩ := Host.renameat_ok call
    · rw [call, unchanged, dirs]
      exact same
    · rw [Host.descriptor_congr fds] at opened
      obtain ⟨old, new⟩ := carried done dir id ptr opened listed
      rw [call, renamed, Host.dirs_setEntry, if_neg, Host.dirs_setEntry, if_neg, dirs]
      · exact same
      · rintro ⟨rfl, rfl⟩
        exact old named
      · rintro ⟨rfl, rfl⟩
        exact new named
  · intro errno failed
    obtain ⟨final, call⟩ : ∃ final, last.renameat inode.fd name inode.fd newname = (.error errno, final) :=
      ⟨(last.renameat inode.fd name inode.fd newname).2, by rw [← failed]⟩
    refine ⟨?_, refused errno failed⟩
    rw [call, ← dirs]
    exact (Host.sys_error call).1

/-- The second half of a rename, with nothing rewritten in the first. -/
theorem overwrite_kept (tracks : Tracks w) (table : Table w.fs) (known : w.fs.getInode parent = .ok inode)
    (dirs : host.dirs = w.host.dirs) (fds : host.fds = w.host.fds)
    (target : ∀ answer last, host.fstatat inode.fd newname = (answer, last) →
      Overwritable w parent inode name newname answer (last.renameat inode.fd name inode.fd newname).1)
    (done : overwrite (w.withHost host) parent inode name newname = .ok (reply, after)) : Kept w reply after := by
  obtain ⟨same, known', done⟩ := bind_ok.mp done
  cases known.symm.trans known'
  obtain ⟨⟨result, next⟩, replaced, done⟩ := bind_ok.mp done
  have frame := host.fstatat_frame inode.fd newname
  obtain ⟨errno, last, failed, rfl, rfl⟩ | ⟨stat, last, ptr, child, found, listed, held, outcome⟩ :=
    replacePath_cases replaced
  · have stat : host.fstatat inode.fd newname = (.error errno, last) := failed
    rw [stat] at frame
    obtain ⟨code, positive⟩ := Nat.exists_eq_succ_of_ne_zero errno.2
    rw [positive] at done
    dsimp only at done
    split at done
    · cases done
      exact kept_withHost tracks table (frame.1.trans dirs) _
    · rename_i missing
      have absent : errno = enoent := Subtype.ext (positive.trans (not_not.mp missing))
      have free := target _ last stat absent
      refine renameat_kept tracks table (.refl w.fs) (frame.1.trans dirs) (frame.2.trans fds)
        (fun carried dir id ptr opened _ => ?_) (fun _ _ => rfl) (Except.ok.inj done)
      exact ⟨(free carried).1 dir ptr opened, (free carried).2 dir ptr opened⟩
  · have there : host.fstatat inode.fd newname = (.ok stat, last) := found
    rw [there] at frame
    obtain ⟨unnamed, settled⟩ := target _ last there
    have rest : ∀ fs', ClearedAt w.fs parent newname ptr child fs' →
        World.status ⟨fs', last⟩ (last.renameat inode.fd name inode.fd newname) = (reply, after) →
        Kept w reply after := by
      intro fs' cleared ends
      refine renameat_kept tracks (cleared.table held table) (cleared.fewer held) (frame.1.trans dirs)
        (frame.2.trans fds) (fun carried dir id other opened listed' => ⟨fun named => ?_, ?_⟩)
        (fun errno refused => ?_) ends
      · exact unnamed carried dir other opened ((cleared.fewer held).namedAt named)
      · obtain ⟨dir', opened', entry⟩ := Host.fstatat_ok there
        rw [Host.descriptor_congr fds, opened] at opened'
        cases opened'
        rw [dirs] at entry
        exact cleared.unnamed held tracks entry listed (settled.carried carried dir ptr opened) listed'
      · exact cleared.unaddressed held (settled.refused errno ptr refused listed)
    rcases outcome with ⟨path, ⟨primary, rfl⟩, rfl⟩ | ⟨other, rfl, rfl⟩
    · exact rest _ (.inl ⟨path, rfl⟩) (Except.ok.inj done)
    · exact rest _ (.inr ⟨other, rfl⟩) (Except.ok.inj done)

theorem rename_kept (tracks : Tracks w) (table : Table w.fs) (movable : Movable w parent name newname)
    (done : rename w parent name newparent newname 0 = .ok (reply, after)) : Kept w reply after := by
  simp only [rename, ne_eq, not_true_eq_false, if_false] at done
  obtain ⟨inode, known, done⟩ := bind_ok.mp done
  obtain ⟨-, done⟩ := of_guard done
  obtain ⟨⟨result, next⟩, replaced, done⟩ := bind_ok.mp done
  have frame := w.host.fstatat_frame inode.fd name
  obtain ⟨errno, host, failed, rfl, rfl⟩ | ⟨stat, host, ptr, child, found, listed, held, outcome⟩ :=
    replacePath_cases replaced
  · obtain ⟨code, positive⟩ := Nat.exists_eq_succ_of_ne_zero errno.2
    rw [positive] at done
    cases done
    rw [failed] at frame
    exact kept_withHost tracks table frame.1 _
  · obtain ⟨unaddressed, target⟩ := movable inode stat host known found
    rcases outcome with ⟨path, -⟩ | ⟨-, rfl, rfl⟩
    · exact absurd ⟨child, held, path⟩ (unaddressed ptr listed)
    · rw [found] at frame
      exact overwrite_kept tracks table known frame.1 frame.2 target done

theorem resolve_dirs (w : World) (inode : Inode) (name : Name) : (w.resolve inode name).2.dirs = w.host.dirs := by
  have opens := w.host.openat_dirs inode.fd name
  simp only [World.resolve]
  split
  · rename_i failed
    simpa only [failed] using opens
  · rename_i newfd host opened
    rw [opened] at opens
    have stats := (host.fstat_dirs newfd).trans opens
    split
    · rename_i failed
      simpa only [failed] using stats
    · rename_i found
      rw [found] at stats
      split
      · exact stats
      · split <;> exact stats

theorem locate_known (table : Table fs) (known : fs.getInode ino = .ok inode) : locate fs ino = some inode.srcId := by
  simp only [Fs.getInode] at known
  split at known
  · rename_i root
    cases known
    exact if_pos (.inl root)
  · rename_i other
    split at known
    · cases known
    · rename_i held
      obtain ⟨-, known⟩ := of_guard known
      cases known
      rw [locate, if_neg, held]
      · rfl
      · rintro (root | root)
        · exact other root
        · exact (table.below ino inode held).2.1 root.symm

theorem locate_insert (table : Table fs) (node : Inode) (located : locate fs ptr = some dir) :
    locate (fs.insert node) ptr = some dir := by
  rw [locate] at located ⊢
  split at located
  · rename_i root
    exact (if_pos root).trans located
  · rename_i other
    have there : ptr ≠ fs.heap := by
      rintro rfl
      cases held : fs.boxes fs.heap with
      | none => simp [held] at located
      | some box => exact Nat.lt_irrefl _ (table.below fs.heap box held).2.2
    have kept : (fs.insert node).boxes ptr = fs.boxes ptr := if_neg there
    refine (if_neg other).trans ?_
    rw [kept]
    exact located

theorem Table.insert (table : Table fs) (node : Inode) : Table (fs.insert node) where
  boxed id ptr found := by
    simp only [Fs.insert, Fs.setBox, Fs.setEntry] at found ⊢
    split at found
    · cases found
      exact ⟨node, if_pos rfl⟩
    · split
      · exact ⟨node, rfl⟩
      · exact table.boxed id ptr found
  below ptr box held := by
    simp only [Fs.insert, Fs.setBox, Fs.setEntry] at held ⊢
    split at held
    · rename_i fresh
      subst fresh
      exact ⟨table.heap.1, Nat.ne_of_lt table.heap.2, Nat.lt_succ_self _⟩
    · obtain ⟨low, apart, high⟩ := table.below ptr box held
      exact ⟨low, apart, Nat.lt_succ_of_lt high⟩
  heap := ⟨Nat.lt_succ_of_lt table.heap.1, Nat.lt_succ_of_lt table.heap.2⟩

/-- A new inode has a right path. -/
theorem Tracks.insert (tracks : Tracks w) (table : Table w.fs) (node : Inode)
    (right : ∀ parent name, node.path = some (parent, name) →
      ∃ dir, locate w.fs parent = some dir ∧ w.host.dirs dir name = some node.srcId) :
    Tracks (w.withFs (w.fs.insert node)) := by
  intro id ptr box parent name found held path
  simp only [World.withFs, Fs.insert, Fs.setBox, Fs.setEntry] at found held
  split at found
  · rename_i same
    cases found
    rw [if_pos rfl] at held
    cases held
    obtain ⟨dir, located, entry⟩ := right parent name path
    exact ⟨dir, locate_insert table node located, same ▸ entry⟩
  · obtain ⟨was, boxed⟩ := table.boxed id ptr found
    have there : ptr ≠ w.fs.heap := Nat.ne_of_lt (table.below ptr was boxed).2.2
    rw [if_neg there] at held
    obtain ⟨dir, located, entry⟩ := tracks id ptr box parent name found held path
    exact ⟨dir, locate_insert table node located, entry⟩

/-- Counting a reference leaves the paths alone. -/
theorem countUp_fewer (up : fs.countUp ptr = .ok fs') (table : Table fs) : Fewer fs fs' ∧ Table fs' := by
  simp only [Fs.countUp] at up
  split at up
  · rename_i child held
    cases up
    refine ⟨⟨rfl, fun other box is => ?_, locate_setBox _ held rfl⟩, table.setBox _ held⟩
    simp only [Fs.setBox] at is
    split at is
    · rename_i same
      cases is
      exact ⟨child, same ▸ held, .inl rfl⟩
    · exact ⟨box, is, .inl rfl⟩
  · cases up

theorem lookup_kept (tracks : Tracks w) (table : Table w.fs) (fine : Fine w (.lookup parent name))
    (done : w.lookup parent name = .ok (reply, after)) : Kept w reply after := by
  have dirs := resolve_dirs w
  obtain ⟨inode, known, ⟨errno, host, failed, rfl, rfl⟩ |
    ⟨newfd, attr, host, ptr, fs, found, inserted, up, rfl, closed⟩⟩ := lookup_cases done
  · have same := dirs inode name
    rw [failed] at same
    exact kept_withHost tracks table same _
  · have same := dirs inode name
    rw [found] at same
    have tree : after.host.dirs = w.host.dirs := by rw [closed, Host.close_dirs, same]
    have inside : Table fs ∧ Tracks (w.withFs fs) := by
      simp only [Fs.orInsert] at inserted
      split at inserted
      · cases inserted
        exact ⟨table, tracks⟩
      · rename_i absent
        split at inserted
        · cases inserted
          refine ⟨table.insert _, tracks.insert table _ fun parent' name' path => ?_⟩
          cases path
          exact ⟨inode.srcId, locate_known table known, fine inode newfd attr host known found absent⟩
        · cases inserted
    obtain ⟨fewer, counted⟩ := countUp_fewer up inside.1
    refine ⟨counted, ?_, ?_⟩
    · refine inside.2.fewer fewer fun dir name id ptr _ _ entry => ?_
      rw [tree]
      exact entry
    · rintro ⟨code, -, same⟩
      cases same

theorem serve_kept (tracks : Tracks w) (table : Table w.fs) (fine : Fine w request)
    (done : serve w request = .ok (reply, after)) : Kept w reply after := by
  cases request with
  | lookup parent name => exact lookup_kept tracks table fine done
  | rename parent name newparent newname => exact rename_kept tracks table fine done
  | unlink parent name => exact unlink_kept tracks table fine done
  | rmdir parent name => exact rmdir_kept tracks table fine done

/-- The file system as it is mounted, with no inode but the root's. -/
structure Mounted (w : World) : Prop where
  inodes : ∀ id, w.fs.inodes id = none
  boxes : ∀ ptr, w.fs.boxes ptr = none
  heap : fuseRootId < w.fs.heap ∧ w.fs.rootAt < w.fs.heap

/-- In a run whose requests are all fine, paths lead to their inodes, and requests that fail leave them. -/
theorem paths_track (w : World) (mounted : Mounted w) (s : World)
    (reached : Reaches (fun s request s' => ∃ reply, serve s request = .ok (reply, s')) Fine w s) :
    Tracks s ∧ ∀ request reply s', Fine s request → serve s request = .ok (reply, s') → Failed reply →
      SamePaths s s' := by
  have invariant : Table s.fs ∧ Tracks s := by
    refine reached.invariant (motive := fun s => Table s.fs ∧ Tracks s) ⟨⟨?_, ?_, mounted.heap⟩, ?_⟩ ?_
    · exact fun id ptr found => nomatch (mounted.inodes id).symm.trans found
    · exact fun ptr inode held => nomatch (mounted.boxes ptr).symm.trans held
    · exact fun id ptr inode parent name found => nomatch (mounted.inodes id).symm.trans found
    · rintro s request s' ⟨table, tracks⟩ ⟨reply, served⟩ fine
      have kept := serve_kept tracks table fine served
      exact ⟨kept.table, kept.tracks⟩
  refine ⟨invariant.2, fun request reply s' fine served failed => ?_⟩
  exact (serve_kept invariant.2 invariant.1 fine served).paths failed

theorem mounted_oneFile : Mounted oneFile := ⟨fun _ => rfl, fun _ => rfl, by decide⟩

/-- A lookup and another request. -/
def lookupThen (request : Request) : Outcome := do
  let (_, w) ← serve oneFile (.lookup fuseRootId [0x61])
  serve w request

/-- A file of the root is removed, or renamed, and its primary path stays behind. -/
theorem path_stays_behind :
    (∃ w, lookupThen (.unlink fuseRootId [0x61]) = .ok (.err 0, w) ∧ ¬ Tracks w) ∧
    ∃ w, lookupThen (.rename fuseRootId [0x61] fuseRootId [0x62]) = .ok (.err 0, w) ∧ ¬ Tracks w := by
  refine ⟨⟨_, rfl, fun tracks => ?_⟩, ⟨_, rfl, fun tracks => ?_⟩⟩
  · obtain ⟨dir, located, entry⟩ := tracks ⟨7, 1⟩ 4096 _ _ _ rfl rfl rfl
    cases located
    cases entry
  · obtain ⟨dir, located, entry⟩ := tracks ⟨7, 1⟩ 4096 _ _ _ rfl rfl rfl
    cases located
    cases entry

theorem fine_first_lookup : Fine oneFile (.lookup fuseRootId [0x61]) := by
  intro inode newfd attr host known found _
  cases known
  cases found
  rfl

/-- A file that has been looked up is where its path says. -/
theorem first_lookup_tracks : ∃ reply w, serve oneFile (.lookup fuseRootId [0x61]) = .ok (reply, w) ∧ Tracks w :=
  ⟨_, _, rfl, (paths_track oneFile mounted_oneFile _ (.next .refl ⟨_, rfl⟩ fine_first_lookup)).1⟩

end Fsyncer.FusePaths
