import Fsyncer.Base.FileTree
import Mathlib.Data.List.Induction
import Mathlib.Data.List.Infix

/-! Trees that cannot be told apart by the objects at their paths: the numbers of
their inodes may differ, and so may the sharing of symbolic links, which nothing
ever changes. An object removed and made again gets a new inode, so this is the
sense in which such a pair of calls leaves the tree as it was. -/
namespace Fsyncer.FileTree

/-- What paths show of an object. -/
structure Traits where
  kind : Kind
  perms : BitVec 12
  uid : Owner
  gid : Owner
  deriving DecidableEq

def Inode.traits (node : Inode) : Traits :=
  { kind := node.kind, perms := node.perms, uid := node.uid, gid := node.gid }

/-- The object is not a symbolic link. -/
def Traits.firm (traits : Traits) : Bool :=
  match traits.kind with
  | .lnk _ => false
  | _ => true

namespace Tree

def sight (t : Tree) (path : Path) : Option Traits := (t.inode? path).map Inode.traits

variable {t u : Tree}

theorem sight_eq_none : t.sight path = none ↔ t.names.find path = none := by
  rw [sight, Option.map_eq_none_iff, inode?_eq_none]

theorem sight_congr (same : t.names.find path = t.names.find other) : t.sight path = t.sight other := by
  rw [sight, sight, inode?, inode?, inodeIn, inodeIn, same]

theorem isDir_eq_sight (t : Tree) (path : Path) :
    t.isDir path = (t.sight path).any fun traits => traits.kind = .dir := by
  rw [isDir, isDirIn, ← inode?, sight]
  cases t.inode? path <;> rfl

structure Alike (t u : Tree) : Prop where
  same : ∀ path, t.sight path = u.sight path
  joint : ∀ path other, (t.sight path).any Traits.firm = true →
    (t.names.find path = t.names.find other ↔ u.names.find path = u.names.find other)

theorem Alike.refl (t : Tree) : Alike t t := ⟨fun _ => rfl, fun _ _ _ => Iff.rfl⟩

theorem Alike.symm (alike : Alike t u) : Alike u t :=
  ⟨fun path => (alike.same path).symm, fun path other firm =>
    (alike.joint path other (by rw [alike.same]; exact firm)).symm⟩

theorem Alike.trans (first : Alike t u) (second : Alike u v) : Alike t v :=
  ⟨fun path => (first.same path).trans (second.same path), fun path other firm =>
    (first.joint path other firm).trans (second.joint path other (by rw [← first.same]; exact firm))⟩

theorem Alike.find_none (alike : Alike t u) (path : Path) :
    t.names.find path = none ↔ u.names.find path = none := by
  rw [← sight_eq_none, alike.same, sight_eq_none]

theorem Alike.isDir (alike : Alike t u) (path : Path) : t.isDir path = u.isDir path := by
  rw [isDir_eq_sight, isDir_eq_sight, alike.same]

theorem Alike.childless (alike : Alike t u) (path : Path) : t.childless path = u.childless path := by
  rw [Bool.eq_iff_iff, childless_iff, childless_iff]
  simp only [alike.find_none]

theorem sight_attach (absent : t.names.find path = none) (parent : t.isDir path.dropLast = true)
    (other : Path) : (t.attach path node absent parent).sight other =
      if path = other then some node.traits else t.sight other := by
  rw [sight, inode?_attach]
  split <;> rfl

theorem sight_detach (proper : path ≠ []) (alone : t.childless path = true) (other : Path) :
    (t.detach path proper alone).sight other = if path = other then none else t.sight other := by
  rw [sight, inode?_detach]
  split <;> rfl

/-- No name leads to the inode that comes next. -/
theorem find_ne_fresh (t : Tree) (path : Path) : t.names.find path ≠ some t.inodes.length := by
  intro found
  exact absurd (t.linked path _ found) (lt_irrefl _)

theorem Alike.attach (alike : Alike t u) (traits : node.traits = node'.traits)
    (absent : t.names.find path = none) (parent : t.isDir path.dropLast = true)
    (absent' : u.names.find path = none) (parent' : u.isDir path.dropLast = true) :
    Alike (t.attach path node absent parent) (u.attach path node' absent' parent') where
  same other := by rw [sight_attach, sight_attach, traits, alike.same]
  joint first second firm := by
    rw [sight_attach] at firm
    rw [find_attach, find_attach, find_attach, find_attach]
    split
    · split
      · simp
      · exact iff_of_false (find_ne_fresh t second).symm (find_ne_fresh u second).symm
    · next elsewhere =>
      rw [if_neg elsewhere] at firm
      split
      · exact iff_of_false (find_ne_fresh t first) (find_ne_fresh u first)
      · exact alike.joint first second firm

theorem Alike.detach (alike : Alike t u) (proper : path ≠ []) (alone : t.childless path = true)
    (alone' : u.childless path = true) :
    Alike (t.detach path proper alone) (u.detach path proper alone') where
  same other := by rw [sight_detach, sight_detach, alike.same]
  joint first second firm := by
    rw [sight_detach] at firm
    rw [find_detach, find_detach, find_detach, find_detach]
    split
    · next here => rw [if_pos here] at firm; cases firm
    · next elsewhere =>
      rw [if_neg elsewhere] at firm
      split
      · rw [alike.find_none]
      · exact alike.joint first second firm

/-- Removing what was just made. -/
theorem alike_detach_attach (absent : t.names.find path = none) (parent : t.isDir path.dropLast = true)
    (proper : path ≠ []) (alone : (t.attach path node absent parent).childless path = true) :
    Alike ((t.attach path node absent parent).detach path proper alone) t where
  same other := by
    rw [sight_detach, sight_attach]
    split
    · next here => rw [← here, sight_eq_none.mpr absent]
    · rfl
  joint first second _ := by
    rw [find_detach, find_detach, find_attach, find_attach]
    split
    · next here =>
      split
      · next here' => simp [← here, ← here']
      · rw [← here, absent]
    · split
      · next here' => rw [← here', absent]
      · rfl

/-- Making again what was just removed, unless another name would have to share it. -/
theorem alike_attach_detach (held : t.sight path = some node.traits)
    (sole : node.traits.firm = true → ∀ other, t.names.find other = t.names.find path → other = path)
    (proper : path ≠ []) (alone : t.childless path = true)
    (absent : (t.detach path proper alone).names.find path = none)
    (parent : (t.detach path proper alone).isDir path.dropLast = true) :
    Alike ((t.detach path proper alone).attach path node absent parent) t where
  same other := by
    rw [sight_attach, sight_detach]
    split
    · next here => rw [← here, held]
    · rfl
  joint first second firm := by
    have fresh := find_ne_fresh (t.detach path proper alone)
    rw [sight_attach] at firm
    rw [find_attach, find_attach]
    split
    · next here =>
      rw [if_pos here] at firm
      split
      · next here' => simp [← here, ← here']
      · next elsewhere =>
        refine iff_of_false (fresh second).symm fun shared => elsewhere ?_
        rw [← here] at shared
        exact (sole firm second shared.symm).symm
    · next elsewhere =>
      rw [if_neg elsewhere, sight_detach, if_neg elsewhere] at firm
      split
      · next here' =>
        refine iff_of_false (fresh first) fun shared => elsewhere ?_
        rw [← here'] at shared
        rw [sight_congr shared, held] at firm
        exact (sole firm first shared).symm
      · next elsewhere' => rw [find_detach, find_detach, if_neg elsewhere, if_neg elsewhere']

theorem sight_amend (kept : ∀ node : Inode, (f node).isDir = node.isDir) (other : Path) :
    (t.amend i f kept).sight other = if t.names.find other = some i
      then (t.inode? other).map fun node => (f node).traits else t.sight other := by
  rw [sight, inode?_amend]
  split
  · rw [Option.map_map]
    rfl
  · rfl

/-- A change that shows only in traits, and keeps what sort of object it is. -/
structure Steady (f : Inode → Inode) : Prop where
  shown : ∀ node node' : Inode, node.traits = node'.traits → (f node).traits = (f node').traits
  kind : ∀ node, (f node).kind = node.kind

theorem Steady.isDir (steady : Steady f) (node : Inode) : (f node).isDir = node.isDir := by
  rw [Inode.isDir, steady.kind, Inode.isDir]

theorem firm_amend (steady : Steady f) (kept : ∀ node : Inode, (f node).isDir = node.isDir) (path : Path) :
    ((t.amend i f kept).sight path).any Traits.firm = (t.sight path).any Traits.firm := by
  rw [sight_amend]
  split
  · rw [sight]
    cases t.inode? path with
    | none => rfl
    | some node =>
      show (f node).traits.firm = node.traits.firm
      have kind : (f node).traits.kind = node.traits.kind := steady.kind node
      rw [Traits.firm, Traits.firm, kind]
  · rfl

theorem Alike.amend (alike : Alike t u) (steady : Steady f)
    (kept : ∀ node : Inode, (f node).isDir = node.isDir) (firm : (t.sight path).any Traits.firm = true)
    (found : t.names.find path = some i) (found' : u.names.find path = some j) :
    Alike (t.amend i f kept) (u.amend j f kept) where
  same other := by
    have joint := alike.joint path other firm
    rw [found, found', eq_comm, eq_comm (a := some j)] at joint
    rw [sight_amend, sight_amend]
    by_cases here : t.names.find other = some i
    · rw [if_pos here, if_pos (joint.mp here)]
      have same := alike.same other
      rw [sight, sight] at same
      cases held : t.inode? other with
      | none =>
        rw [held] at same
        rw [Option.map_eq_none_iff.mp same.symm]
      | some node =>
        rw [held] at same
        obtain ⟨node', held', traits⟩ := Option.map_eq_some_iff.mp same.symm
        rw [held', Option.map_some, Option.map_some, steady.shown node node' traits.symm]
    · rw [if_neg here, if_neg fun there => here (joint.mpr there), alike.same]
  joint first second firm' := by
    rw [firm_amend steady kept] at firm'
    exact alike.joint first second firm'

/-- Changes that cancel on the inode at `path` cancel in the tree. -/
theorem alike_amend_amend (found : t.names.find path = some i) (held : t.inode? path = some node)
    (kept : ∀ node : Inode, (f node).isDir = node.isDir)
    (kept' : ∀ node : Inode, (g node).isDir = node.isDir) (cancel : (g (f node)).traits = node.traits) :
    Alike ((t.amend i f kept).amend i g kept') t where
  same other := by
    rw [sight_amend, inode?_amend]
    split
    · next here =>
      have names : t.names.find other = t.names.find path := here.trans found.symm
      have same : t.inode? other = some node := by
        rw [← held, inode?, inode?, inodeIn, inodeIn, names]
      have here : t.names.find other = some i := here
      rw [if_pos here, same, sight, same]
      exact congrArg some cancel
    · next elsewhere =>
      rw [sight_amend]
      exact if_neg elsewhere
  joint _ _ _ := Iff.rfl

theorem create_ok (made : t.create path node = .ok after) :
    ∃ absent parent, after = t.attach path node absent parent := by
  rw [create] at made
  split at made
  · next absent =>
    split at made
    · next parent => cases made; exact ⟨absent, parent, rfl⟩
    · cases made
  · cases made

theorem create_of (absent : t.names.find path = none) (parent : t.isDir path.dropLast = true) :
    t.create path node = .ok (t.attach path node absent parent) := by
  rw [create, dif_pos absent, dif_pos parent]

theorem unlink_ok (removed : t.unlink path = .ok after) :
    t.names.find path ≠ none ∧ t.isDir path = false ∧ ∃ proper alone, after = t.detach path proper alone := by
  rw [unlink] at removed
  split at removed
  · cases removed
  · next present =>
    split at removed
    · cases removed
    · next kind => cases removed; exact ⟨present, Bool.eq_false_iff.mpr kind, _, _, rfl⟩

theorem unlink_of (present : t.names.find path ≠ none) (kind : t.isDir path = false) :
    ∃ proper alone, t.unlink path = .ok (t.detach path proper alone) := by
  rw [unlink, if_neg present, dif_neg (by rw [kind]; exact Bool.false_ne_true)]
  exact ⟨_, _, rfl⟩

theorem rmdir_ok (removed : t.rmdir path = .ok after) :
    t.isDir path = true ∧ ∃ proper alone, after = t.detach path proper alone := by
  rw [rmdir] at removed
  split at removed
  · cases removed
  · split at removed
    · cases removed
    · next kind =>
      split at removed
      · cases removed
      · next proper =>
        split at removed
        · next alone => cases removed; exact ⟨by simpa using kind, proper, alone, rfl⟩
        · cases removed

theorem find_ne_none (dir : t.isDir path = true) : t.names.find path ≠ none := by
  intro absent
  exact isDir_ne dir absent rfl

theorem rmdir_of (kind : t.isDir path = true) (proper : path ≠ []) (alone : t.childless path = true) :
    t.rmdir path = .ok (t.detach path proper alone) := by
  rw [rmdir, if_neg (find_ne_none kind), if_neg (by rw [kind]; exact Bool.noConfusion), dif_neg proper,
    dif_pos alone]

theorem change_ok {kept : ∀ node : Inode, (f node).isDir = node.isDir}
    (changed : t.change path f kept = .ok after) :
    ∃ i, t.names.find path = some i ∧ after = t.amend i f kept := by
  rw [change] at changed
  split at changed
  · cases changed
  · next i found => cases changed; exact ⟨i, found, rfl⟩

theorem change_of {kept : ∀ node : Inode, (f node).isDir = node.isDir} (found : t.names.find path = some i) :
    t.change path f kept = .ok (t.amend i f kept) := by
  rw [change, found]

theorem ne_nil_of_find_none (absent : t.names.find path = none) : path ≠ [] := by
  rintro rfl
  exact find_ne_none t.rooted absent

/-- Nothing lies in a path that leads nowhere. -/
theorem childless_attach (absent : t.names.find path = none) (parent : t.isDir path.dropLast = true) :
    (t.attach path node absent parent).childless path = true := by
  apply childless_iff.mpr
  rintro other proper rfl
  have shorter : other.dropLast ≠ other := fun same => by
    have length := congrArg List.length same
    have positive := List.length_pos_iff.mpr proper
    rw [List.length_dropLast] at length
    omega
  rw [find_attach, if_neg shorter]
  cases found : t.names.find other with
  | none => rfl
  | some i => exact absurd absent (find_ne_none (t.closed other i proper found))

theorem Alike.create (alike : Alike t u) (traits : node.traits = node'.traits)
    (made : t.create path node = .ok after) :
    ∃ after', u.create path node' = .ok after' ∧ Alike after after' := by
  obtain ⟨absent, parent, rfl⟩ := create_ok made
  have absent' := (alike.find_none path).mp absent
  have parent' := (alike.isDir path.dropLast).symm.trans parent
  exact ⟨_, create_of absent' parent', alike.attach traits absent parent absent' parent'⟩

theorem Alike.unlink (alike : Alike t u) (removed : t.unlink path = .ok after) :
    ∃ after', u.unlink path = .ok after' ∧ Alike after after' := by
  obtain ⟨present, kind, proper, alone, rfl⟩ := unlink_ok removed
  obtain ⟨_, alone', gone⟩ := unlink_of (fun absent => present ((alike.find_none path).mpr absent))
    ((alike.isDir path).symm.trans kind)
  exact ⟨_, gone, alike.detach proper alone alone'⟩

theorem Alike.rmdir (alike : Alike t u) (removed : t.rmdir path = .ok after) :
    ∃ after', u.rmdir path = .ok after' ∧ Alike after after' := by
  obtain ⟨kind, proper, alone, rfl⟩ := rmdir_ok removed
  have alone' := (alike.childless path).symm.trans alone
  exact ⟨_, rmdir_of ((alike.isDir path).symm.trans kind) proper alone', alike.detach proper alone alone'⟩

theorem Alike.change (alike : Alike t u) (steady : Steady f) {kept : ∀ node : Inode, (f node).isDir = node.isDir}
    (firm : (t.sight path).any Traits.firm = true) (changed : t.change path f kept = .ok after) :
    ∃ after', u.change path f kept = .ok after' ∧ Alike after after' := by
  obtain ⟨i, found, rfl⟩ := change_ok changed
  have present : u.names.find path ≠ none := by
    rw [Ne, ← alike.find_none, found]
    exact Option.some_ne_none i
  obtain ⟨j, found'⟩ := Option.ne_none_iff_exists'.mp present
  exact ⟨_, change_of found', alike.amend steady kept firm found found'⟩

/-- A new object can be removed again. -/
theorem unlink_created (made : t.create path node = .ok after) (kind : node.isDir = false) :
    ∃ undone, after.unlink path = .ok undone ∧ Alike undone t := by
  obtain ⟨absent, parent, rfl⟩ := create_ok made
  have held : (t.attach path node absent parent).inode? path = some node := by
    rw [inode?_attach, if_pos rfl]
  have present : (t.attach path node absent parent).names.find path ≠ none := by
    rw [find_attach, if_pos rfl]
    exact Option.some_ne_none _
  have other_kind : (t.attach path node absent parent).isDir path = false := by
    rw [isDir, isDirIn, ← inode?, held]
    exact kind
  obtain ⟨proper, alone, gone⟩ := unlink_of present other_kind
  exact ⟨_, gone, alike_detach_attach absent parent proper alone⟩

theorem rmdir_created (made : t.create path node = .ok after) (kind : node.isDir = true) :
    ∃ undone, after.rmdir path = .ok undone ∧ Alike undone t := by
  obtain ⟨absent, parent, rfl⟩ := create_ok made
  have proper := ne_nil_of_find_none absent
  have alone : (t.attach path node absent parent).childless path = true := childless_attach absent parent
  have dir : (t.attach path node absent parent).isDir path = true := by
    rw [isDir, isDirIn, ← inode?, inode?_attach, if_pos rfl]
    exact kind
  exact ⟨_, rmdir_of dir proper alone, alike_detach_attach absent parent proper alone⟩

/-- A removed object can be made again. -/
theorem create_detached (held : t.sight path = some node.traits)
    (sole : node.traits.firm = true → ∀ other, t.names.find other = t.names.find path → other = path)
    (proper : path ≠ []) (alone : t.childless path = true) :
    ∃ undone, (t.detach path proper alone).create path node = .ok undone ∧ Alike undone t := by
  have absent : (t.detach path proper alone).names.find path = none := by rw [find_detach, if_pos rfl]
  have parent : (t.detach path proper alone).isDir path.dropLast = true := by
    have differ : path ≠ path.dropLast := fun same => by
      have length := congrArg List.length same
      have positive := List.length_pos_iff.mpr proper
      rw [List.length_dropLast] at length
      omega
    rw [isDir_eq_sight, sight_detach, if_neg differ, ← isDir_eq_sight]
    obtain ⟨node', held', -⟩ := Option.map_eq_some_iff.mp held
    exact isDir_dropLast held' proper
  exact ⟨_, create_of absent parent, alike_attach_detach held sole proper alone absent parent⟩

theorem isDir_above (dir : t.isDir path = true) (above : other <+: path) : t.isDir other = true := by
  induction path using List.reverseRecOn generalizing other with
  | nil => rw [List.prefix_nil.mp above]; exact dir
  | append_singleton front last ih =>
    rcases List.prefix_concat_iff.mp above with rfl | above
    · exact dir
    · obtain ⟨node, held, -⟩ := isDir_iff.mp dir
      have parent := isDir_dropLast held (List.concat_ne_nil _ _)
      rw [List.dropLast_concat] at parent
      exact ih parent above

/-- In a directory the only obstacle is absence. -/
theorem obstacle_in_dir (parent : t.isDir path.dropLast = true) : t.obstacle path = .enoent := by
  have none : path.dropLast.inits.find? (fun ahead => ¬ t.isDir ahead) = none := by
    rw [List.find?_eq_none]
    intro ahead listed
    simp [isDir_above parent ((List.mem_inits _ _).mp listed)]
  rw [obstacle, none]

theorem isLnk_eq_firm (node : Inode) : node.isLnk = !node.traits.firm := by
  rw [Inode.isLnk, Traits.firm]
  cases kind : node.kind <;> simp [Inode.traits, kind]

theorem any_isLnk (t : Tree) (path : Path) (present : t.names.find path ≠ none) :
    (t.inode? path).any Inode.isLnk = !(t.sight path).any Traits.firm := by
  rw [sight]
  cases held : t.inode? path with
  | none => exact absurd (inode?_eq_none.mp held) present
  | some node => exact isLnk_eq_firm node

theorem steady_setMode (mode : UInt32) : Steady (Inode.setMode mode) where
  shown node node' same := by
    have kind : node.kind = node'.kind := congrArg Traits.kind same
    have uid : node.uid = node'.uid := congrArg Traits.uid same
    have gid : node.gid = node'.gid := congrArg Traits.gid same
    have lnk : node.isLnk = node'.isLnk := by rw [isLnk_eq_firm, same, ← isLnk_eq_firm]
    show Traits.mk node.kind (if node.isLnk then 0o777#12 else permOf mode) node.uid node.gid =
      Traits.mk node'.kind (if node'.isLnk then 0o777#12 else permOf mode) node'.uid node'.gid
    rw [kind, lnk, uid, gid]
  kind _ := rfl

theorem steady_setOwner (uid gid : UInt32) : Steady (Inode.setOwner uid gid) where
  shown node node' same := by
    have kind : node.kind = node'.kind := congrArg Traits.kind same
    have perms : node.perms = node'.perms := congrArg Traits.perms same
    have uid : node.uid = node'.uid := congrArg Traits.uid same
    have gid : node.gid = node'.gid := congrArg Traits.gid same
    show Traits.mk node.kind node.perms _ _ = Traits.mk node'.kind node'.perms _ _
    rw [kind, perms]
    simp only [Inode.setOwner, uid, gid]
  kind _ := rfl

/-- What `chmod` and `chown` share: they change the inode of what is no symbolic link. -/
theorem followed_eq (firm : (t.sight path).any Traits.firm = true) (result : Except Errno Tree) :
    (if (t.inode? path).any Inode.isLnk then .error .eloop else result) = result := by
  have present : t.names.find path ≠ none := by
    intro absent
    rw [sight_eq_none.mpr absent] at firm
    cases firm
  rw [any_isLnk t path present, firm]
  rfl

theorem followed_ok {kept : ∀ node : Inode, (f node).isDir = node.isDir}
    (changed : (if (t.inode? path).any Inode.isLnk then .error .eloop else t.change path f kept) = .ok after) :
    (t.sight path).any Traits.firm = true ∧ t.change path f kept = .ok after := by
  split at changed
  · cases changed
  · next followed =>
    obtain ⟨i, found, -⟩ := change_ok changed
    rw [any_isLnk t path (by rw [found]; exact Option.some_ne_none i)] at followed
    exact ⟨by simpa using followed, changed⟩

end Tree

end Fsyncer.FileTree
