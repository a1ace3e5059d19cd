import Fsyncer.Base.TreeViews
import Fsyncer.BilogNames
import Fsyncer.SnapshotExtents
import Mathlib.Order.WellFoundedSet

/-! The names in a snapshot. The table of files has one entry for each path, and
the replay makes the objects in the order of their paths. What an entry refers to
is kept as a path too, so the replay gives the names back as long as no such path
moves: nothing lies in a directory that is renamed, and what hard links refer to
stays where it is and sorts before them. -/
namespace Fsyncer.SnapshotNames
open Fsyncer.Bilog Fsyncer.FileTree
open Fsyncer.Machine Fsyncer.SnapshotReplay Fsyncer.SnapshotStore Fsyncer.Vfs
open Fsyncer.SnapshotExtents (epoch)

/-! ### Views and plans -/

/-- How an object is made. -/
inductive Shape where
  | directory (mode : UInt32)
  | new (flags : Int32) (mode : UInt32)
  | special (mode : UInt32) (rdev : UInt64)
  | symlink (target : List UInt8)
  | hardlink (source : Path)

def Shape.isLink : Shape → Bool
  | .hardlink _ => true
  | _ => false

/-- What can have hard links in a snapshot. -/
def Shape.holdsData : Shape → Bool
  | .directory _ | .symlink _ => false
  | _ => true

/-- What is made, if anything is. -/
def Shape.kind : Shape → Option Kind
  | .directory _ => some .dir
  | .new flags _ => if flags.toUInt32 &&& Tree.oCreat = 0 then none else some (.reg [])
  | .special mode rdev => (madeKind mode rdev).toOption
  | .symlink target => if empty : target = [] then none else some (.lnk ⟨target, empty⟩)
  | .hardlink _ => none

/-- An object to make, with its owner. -/
structure Item where
  shape : Shape
  uid : UInt32
  gid : UInt32

/-- What is to be made at each path. -/
abbrev Plan := Path → Option Item

/-- No item is a hard link to `path`. -/
def Plan.Unlinked (plan : Plan) (path : Path) : Prop :=
  ∀ other item, plan other = some item → item.shape ≠ .hardlink path

/-- The view shows what the plan makes. -/
structure Keeps (v : View Kind) (plan : Plan) : Prop where
  rooted : v.shown [] = some .dir
  proper : plan [] = none
  present : ∀ path, path ≠ [] → (v.number path = none ↔ plan path = none)
  made : ∀ path item, plan path = some item → item.shape.isLink = false →
    item.shape.kind ≠ none ∧ v.shown path = item.shape.kind
  linked : ∀ path item source, plan path = some item → item.shape = .hardlink source →
    source < path ∧ v.number path = v.number source ∧ ∃ other, plan source = some other ∧ other.shape.holdsData = true
  distinct : ∀ path other item item', plan path = some item → plan other = some item' →
    item.shape.isLink = false → item'.shape.isLink = false → v.number path = v.number other → path = other

section Plans
variable {v v' : View Kind} {plan : Plan} {path : Path} {item : Item}

theorem isLink_of_kind (made : item.shape.kind = some kind) : item.shape.isLink = false := by
  cases shape : item.shape with
  | hardlink source =>
    rw [shape] at made
    cases made
  | _ => rfl

theorem exists_source (link : item.shape.isLink = true) : ∃ source, item.shape = .hardlink source := by
  cases shape : item.shape with
  | hardlink source => exact ⟨source, rfl⟩
  | _ =>
    rw [shape] at link
    cases link

theorem Keeps.source_ne (keeps : Keeps v plan) (planned : plan other = some item') (link : item'.shape = .hardlink source)
    (absent : plan path = none) : source ≠ path := by
  rintro rfl
  obtain ⟨-, -, held, present, -⟩ := keeps.linked other item' source planned link
  cases absent.symm.trans present

theorem Keeps.number_ne_none (keeps : Keeps v plan) (planned : plan path = some item) : v.number path ≠ none := by
  have proper : path ≠ [] := by
    rintro rfl
    cases keeps.proper.symm.trans planned
  intro missing
  cases ((keeps.present path proper).mp missing).symm.trans planned

/-- A new object at a path that leads nowhere. -/
theorem Keeps.make (keeps : Keeps v plan) (proper : path ≠ []) (absent : v.number path = none)
    (fresh : ∀ other held, plan other = some held → v.number other ≠ some n) (made : item.shape.kind = some kind) :
    Keeps (v.set path (some n) (some kind)) (Function.update plan path (some item)) := by
  have free : plan path = none := (keeps.present path proper).mp absent
  refine ⟨?_, ?_, fun other below => ?_, fun other held planned plain => ?_, fun other held source planned link => ?_, ?_⟩
  · exact (Function.update_of_ne proper.symm ..).trans keeps.rooted
  · exact (Function.update_of_ne proper.symm ..).trans keeps.proper
  · show Function.update v.number path (some n) other = none ↔ _
    rw [Function.update_apply, Function.update_apply]
    split
    · exact iff_of_false nofun nofun
    · exact keeps.present other below
  · show _ ∧ Function.update v.shown path (some kind) other = _
    rw [Function.update_apply] at planned ⊢
    split at planned
    · next here =>
      cases planned
      rw [if_pos here, made]
      exact ⟨nofun, rfl⟩
    · next elsewhere =>
      rw [if_neg elsewhere]
      exact keeps.made other held planned plain
  · rw [Function.update_apply] at planned
    split at planned
    · cases planned
      rw [link] at made
      cases made
    · next elsewhere =>
      have away := keeps.source_ne planned link free
      obtain ⟨before, same, there, found, holds⟩ := keeps.linked other held source planned link
      refine ⟨before, ?_, there, (Function.update_of_ne away ..).trans found, holds⟩
      exact (Function.update_of_ne elsewhere ..).trans (same.trans (Function.update_of_ne away ..).symm)
  · intro first second held held' planned planned' plain plain' same
    have numbers (other : Path) : (v.set path (some n) (some kind)).number other =
        if other = path then some n else v.number other := Function.update_apply ..
    rw [numbers, numbers] at same
    rw [Function.update_apply] at planned planned'
    split at planned <;> split at planned'
    · next here there => exact here.trans there.symm
    · next here there =>
      rw [if_pos here, if_neg there] at same
      exact absurd same.symm (fresh second held' planned')
    · next here there =>
      rw [if_neg here, if_pos there] at same
      exact absurd same (fresh first held planned)
    · next here there =>
      rw [if_neg here, if_neg there] at same
      exact keeps.distinct first second held held' planned planned' plain plain' same

/-- One more name of an object. -/
theorem Keeps.link (keeps : Keeps v plan) (proper : path ≠ []) (absent : v.number path = none)
    (before : source < path) (planned : plan source = some other) (holds : other.shape.holdsData = true)
    (link : item.shape = .hardlink source) :
    Keeps (v.set path (v.number source) (v.shown source)) (Function.update plan path (some item)) := by
  have free : plan path = none := (keeps.present path proper).mp absent
  have away : source ≠ path := before.ne
  have present := keeps.number_ne_none planned
  refine ⟨?_, ?_, fun entry below => ?_, fun entry held there plain => ?_, fun entry held target there link' => ?_, ?_⟩
  · exact (Function.update_of_ne proper.symm ..).trans keeps.rooted
  · exact (Function.update_of_ne proper.symm ..).trans keeps.proper
  · show Function.update v.number path (v.number source) entry = none ↔ _
    rw [Function.update_apply, Function.update_apply]
    split
    · exact iff_of_false present nofun
    · exact keeps.present entry below
  · show _ ∧ Function.update v.shown path (v.shown source) entry = _
    rw [Function.update_apply] at there ⊢
    split at there
    · cases there
      rw [link] at plain
      cases plain
    · next elsewhere =>
      rw [if_neg elsewhere]
      exact keeps.made entry held there plain
  · rw [Function.update_apply] at there
    split at there
    · next here =>
      cases there
      cases link.symm.trans link'
      subst here
      refine ⟨before, ?_, other, (Function.update_of_ne away ..).trans planned, holds⟩
      exact (Function.update_self ..).trans (Function.update_of_ne away ..).symm
    · next elsewhere =>
      have apart := keeps.source_ne there link' free
      obtain ⟨earlier, same, last, found, holdsLast⟩ := keeps.linked entry held target there link'
      refine ⟨earlier, ?_, last, (Function.update_of_ne apart ..).trans found, holdsLast⟩
      exact (Function.update_of_ne elsewhere ..).trans (same.trans (Function.update_of_ne apart ..).symm)
  · intro first second held held' planned planned' plain plain' same
    have plainly {entry : Path} {held : Item} (planned : Function.update plan path (some item) entry = some held)
        (plain : held.shape.isLink = false) : entry ≠ path ∧ plan entry = some held := by
      rw [Function.update_apply] at planned
      split at planned
      · cases planned
        rw [link] at plain
        cases plain
      · next elsewhere => exact ⟨elsewhere, planned⟩
    obtain ⟨away, planned⟩ := plainly planned plain
    obtain ⟨away', planned'⟩ := plainly planned' plain'
    refine keeps.distinct first second held held' planned planned' plain plain' ?_
    exact ((Function.update_of_ne away ..).symm.trans same).trans (Function.update_of_ne away' ..)

/-- An object is removed that no item refers to. -/
theorem Keeps.remove (keeps : Keeps v plan) (proper : path ≠ []) (unlinked : plan.Unlinked path) :
    Keeps (v.set path none none) (Function.update plan path none) := by
  have planned {entry : Path} {held : Item} (there : Function.update plan path none entry = some held) :
      entry ≠ path ∧ plan entry = some held := by
    rw [Function.update_apply] at there
    split at there
    · cases there
    · next elsewhere => exact ⟨elsewhere, there⟩
  have number {entry : Path} (away : entry ≠ path) : (v.set path none none).number entry = v.number entry :=
    Function.update_of_ne away ..
  refine ⟨?_, ?_, fun entry below => ?_, fun entry held there plain => ?_, fun entry held target there link => ?_, ?_⟩
  · exact (Function.update_of_ne proper.symm ..).trans keeps.rooted
  · exact (Function.update_of_ne proper.symm ..).trans keeps.proper
  · show Function.update v.number path none entry = none ↔ _
    rw [Function.update_apply, Function.update_apply]
    split
    · exact iff_of_true rfl rfl
    · exact keeps.present entry below
  · obtain ⟨away, there⟩ := planned there
    obtain ⟨makes, same⟩ := keeps.made entry held there plain
    exact ⟨makes, (Function.update_of_ne away ..).trans same⟩
  · obtain ⟨away, there⟩ := planned there
    have apart : target ≠ path := fun same => unlinked entry held there (same ▸ link)
    obtain ⟨before, same, last, found, holds⟩ := keeps.linked entry held target there link
    refine ⟨before, ?_, last, (Function.update_of_ne apart ..).trans found, holds⟩
    rw [number away, number apart, same]
  · intro first second held held' there there' plain plain' same
    obtain ⟨away, there⟩ := planned there
    obtain ⟨away', there'⟩ := planned there'
    rw [number away, number away'] at same
    exact keeps.distinct first second held held' there there' plain plain' same

def Plan.Finite (plan : Plan) : Prop := { path | plan path ≠ none }.Finite

/-- Paths are treated after those before them; there are only finitely many. -/
theorem Plan.Finite.induction (finite : plan.Finite) {P : Path → Prop}
    (step : ∀ path item, plan path = some item → (∀ other < path, plan other ≠ none → P other) → P path)
    (planned : plan path ≠ none) : P path := by
  refine Set.WellFoundedOn.induction (r := (· < ·)) finite.wellFoundedOn planned fun path planned earlier => ?_
  obtain ⟨item, planned⟩ := Option.ne_none_iff_exists'.mp planned
  exact step path item planned fun other before there => earlier other there before

/-- Another name of an object comes from a hard link to it. -/
theorem Keeps.unlinked_alone (finite : plan.Finite) (keeps : Keeps v plan) (planned : plan path = some item)
    (plain : item.shape.isLink = false) (unlinked : plan.Unlinked path) (there : plan other ≠ none)
    (same : v.number other = v.number path) : other = path := by
  revert same
  refine finite.induction (P := fun other => v.number other = v.number path → other = path) ?_ there
  intro other held there earlier same
  cases link : held.shape.isLink with
  | false => exact keeps.distinct other path held item there planned link plain same
  | true =>
    obtain ⟨source, link⟩ := exists_source link
    obtain ⟨before, shared, last, found, -⟩ := keeps.linked other held source there link
    have here : source = path := earlier source before (by rw [found]; exact nofun) (shared.symm.trans same)
    exact absurd (here ▸ link) (unlinked other held there)

/-- An object that no item refers to gets another name, in the place of an object
that no item refers to. -/
theorem Keeps.move (finite : plan.Finite) (coherent : v.Coherent) (keeps : Keeps v plan) (below : source ≠ [])
    (proper : dest ≠ []) (planned : plan source = some item) (unlinked : plan.Unlinked source)
    (free : plan.Unlinked dest) (before : ∀ target, item.shape = .hardlink target → target < dest) :
    Keeps ((v.set source none none).set dest (v.number source) (v.shown source))
      (Function.update (Function.update plan source none) dest (some item)) := by
  have gone : Keeps ((v.set source none none).set dest none none)
      (Function.update (Function.update plan source none) dest none) := by
    refine (keeps.remove below unlinked).remove proper fun other held there => ?_
    rw [Function.update_apply] at there
    split at there
    · cases there
    · exact free other held there
  have view (number kind) : (((v.set source none none).set dest none none).set dest number kind) =
      (v.set source none none).set dest number kind := by
    unfold View.set
    simp only [Function.update_idem]
  have away : ((v.set source none none).set dest none none).number dest = none := Function.update_self ..
  have left {other : Path} {held : Item}
      (there : Function.update (Function.update plan source none) dest none other = some held) :
      other ≠ source ∧ other ≠ dest ∧ plan other = some held := by
    rw [Function.update_apply, Function.update_apply] at there
    split at there
    · cases there
    · next apart =>
      split at there
      · cases there
      · next apart' => exact ⟨apart', apart, there⟩
  have number {other : Path} (apart : other ≠ source) (apart' : other ≠ dest) :
      ((v.set source none none).set dest none none).number other = v.number other :=
    (Function.update_of_ne apart' ..).trans (Function.update_of_ne apart ..)
  have kinds {other : Path} (apart : other ≠ source) (apart' : other ≠ dest) :
      ((v.set source none none).set dest none none).shown other = v.shown other :=
    (Function.update_of_ne apart' ..).trans (Function.update_of_ne apart ..)
  cases link : item.shape.isLink with
  | false =>
    obtain ⟨n, held⟩ := Option.ne_none_iff_exists'.mp (keeps.number_ne_none planned)
    obtain ⟨makes, kind⟩ := keeps.made source item planned link
    obtain ⟨made, shape⟩ := Option.ne_none_iff_exists'.mp makes
    have fresh (other : Path) (held' : Item)
        (there : Function.update (Function.update plan source none) dest none other = some held') :
        ((v.set source none none).set dest none none).number other ≠ some n := by
      obtain ⟨apart, apart', there⟩ := left there
      rw [number apart apart']
      intro same
      exact apart (keeps.unlinked_alone finite planned link unlinked (by rw [there]; exact nofun) (same.trans held.symm))
    have result := gone.make proper away fresh shape
    rwa [view, Function.update_idem, ← held, ← shape, ← kind] at result
  | true =>
    obtain ⟨target, link⟩ := exists_source link
    obtain ⟨earlier, same, last, found, holds⟩ := keeps.linked source item target planned link
    have apart : target ≠ source := earlier.ne
    have apart' : target ≠ dest := (before target link).ne
    have found' : Function.update (Function.update plan source none) dest none target = some last :=
      (Function.update_of_ne apart' ..).trans ((Function.update_of_ne apart ..).trans found)
    have result := gone.link proper away (before target link) found' holds link
    rwa [view, Function.update_idem, number apart apart', kinds apart apart', ← same, ← coherent _ _ same] at result

/-- What can have hard links is neither a directory nor a symbolic link. -/
theorem Keeps.firm (finite : plan.Finite) (coherent : v.Coherent) (keeps : Keeps v plan) (planned : plan path = some item)
    (holds : item.shape.holdsData = true) : ∃ kind, v.shown path = some kind ∧ kind ≠ .dir ∧ ∀ target, kind ≠ .lnk target := by
  have all : ∀ item, plan path = some item → item.shape.holdsData = true →
      ∃ kind, v.shown path = some kind ∧ kind ≠ .dir ∧ ∀ target, kind ≠ .lnk target := by
    refine finite.induction (P := fun path => ∀ item, plan path = some item → item.shape.holdsData = true →
      ∃ kind, v.shown path = some kind ∧ kind ≠ .dir ∧ ∀ target, kind ≠ .lnk target) ?_ (by rw [planned]; exact nofun)
    intro path _ _ earlier item planned holds
    cases link : item.shape.isLink with
    | true =>
      obtain ⟨source, link⟩ := exists_source link
      obtain ⟨before, same, last, found, holds⟩ := keeps.linked path item source planned link
      rw [coherent path source same]
      exact earlier source before (by rw [found]; exact nofun) last found holds
    | false =>
      obtain ⟨makes, kind⟩ := keeps.made path item planned link
      rw [kind]
      cases shape : item.shape with
      | directory | symlink =>
        rw [shape] at holds
        cases holds
      | hardlink =>
        rw [shape] at link
        cases link
      | new flags mode =>
        rw [shape] at makes
        unfold Shape.kind at makes ⊢
        dsimp only at makes ⊢
        split at makes
        · exact absurd rfl makes
        · next creates =>
          rw [if_neg creates]
          exact ⟨_, rfl, nofun, nofun⟩
      | special mode rdev =>
        rw [shape] at makes
        unfold Shape.kind at makes ⊢
        dsimp only at makes ⊢
        cases made : madeKind mode rdev with
        | error =>
          rw [made] at makes
          exact absurd rfl makes
        | ok kind => exact ⟨kind, rfl, madeKind_firm made⟩
  exact all item planned holds

/-- Two views of what one plan makes, the second of a part of it. -/
theorem Keeps.kind_eq {part : Plan} (finite : plan.Finite) (keeps : Keeps v plan) (keeps' : Keeps v' part)
    (coherent : v.Coherent) (coherent' : v'.Coherent) (within : ∀ path item, part path = some item → plan path = some item)
    (there : part path ≠ none) : v.shown path = v'.shown path := by
  have smaller : part.Finite := finite.subset fun path planned => by
    obtain ⟨item, planned⟩ := Option.ne_none_iff_exists'.mp planned
    show plan path ≠ none
    rw [within path item planned]
    exact nofun
  refine smaller.induction (P := fun path => v.shown path = v'.shown path) ?_ there
  intro path item planned earlier
  have whole := within path item planned
  cases link : item.shape.isLink with
  | false => exact (keeps.made path item whole link).2.trans (keeps'.made path item planned link).2.symm
  | true =>
    obtain ⟨source, link⟩ := exists_source link
    obtain ⟨-, same, -⟩ := keeps.linked path item source whole link
    obtain ⟨before, same', last, found, -⟩ := keeps'.linked path item source planned link
    rw [coherent path source same, coherent' path source same']
    exact earlier source before (by rw [found]; exact nofun)

/-- In any two views the same item stands for a path: the one that its hard links lead to. -/
theorem Keeps.origin (finite : plan.Finite) (keeps : Keeps v plan) (keeps' : Keeps v' plan) (there : plan path ≠ none) :
    ∃ origin item, plan origin = some item ∧ item.shape.isLink = false ∧ v.number path = v.number origin ∧
      v'.number path = v'.number origin := by
  refine finite.induction (P := fun path => ∃ origin item, plan origin = some item ∧ item.shape.isLink = false ∧
    v.number path = v.number origin ∧ v'.number path = v'.number origin) ?_ there
  intro path item planned earlier
  cases link : item.shape.isLink with
  | false => exact ⟨path, item, planned, link, rfl, rfl⟩
  | true =>
    obtain ⟨source, link⟩ := exists_source link
    obtain ⟨before, same, last, found, -⟩ := keeps.linked path item source planned link
    obtain ⟨-, same', -⟩ := keeps'.linked path item source planned link
    obtain ⟨origin, own, here, plain, first, second⟩ := earlier source before (by rw [found]; exact nofun)
    exact ⟨origin, own, here, plain, same.trans first, same'.trans second⟩

/-- All views of what one plan makes are alike. -/
theorem Keeps.alike (finite : plan.Finite) (keeps : Keeps v plan) (keeps' : Keeps v' plan) (coherent : v.Coherent)
    (coherent' : v'.Coherent) (absent : ∀ path, v.number path = none → v.shown path = none)
    (absent' : ∀ path, v'.number path = none → v'.shown path = none) : v.Alike v' := by
  refine ⟨fun path => ?_, fun path other proper proper' => ?_⟩
  · by_cases root : path = []
    · rw [root, keeps.rooted, keeps'.rooted]
    · by_cases missing : plan path = none
      · rw [absent path ((keeps.present path root).mpr missing), absent' path ((keeps'.present path root).mpr missing)]
      · exact keeps.kind_eq finite keeps' coherent coherent' (fun _ _ => id) missing
  · by_cases missing : plan path = none
    · rw [(keeps.present path proper).mpr missing, (keeps'.present path proper).mpr missing,
        @eq_comm _ none (v.number other), @eq_comm _ none (v'.number other), keeps.present other proper',
        keeps'.present other proper']
    · by_cases missing' : plan other = none
      · rw [(keeps.present other proper').mpr missing', (keeps'.present other proper').mpr missing',
          keeps.present path proper, keeps'.present path proper]
      · obtain ⟨origin, item, planned, plain, first, second⟩ := keeps.origin finite keeps' missing
        obtain ⟨origin', item', planned', plain', first', second'⟩ := keeps.origin finite keeps' missing'
        rw [first, first', second, second']
        constructor
        · intro same
          rw [keeps.distinct origin origin' item item' planned planned' plain plain' same]
        · intro same
          rw [keeps'.distinct origin origin' item item' planned planned' plain plain' same]

end Plans

/-! ### Views of trees -/

/-- The kinds below a directory. -/
abbrev viewOf (root : Path) (t : Tree) : View Kind := t.view Inode.kind root

section Trees
variable {t : Tree} {root path source dest : Path}

theorem isDir_iff_kind (path : Path) : t.isDir (root ++ path) = true ↔ (viewOf root t).shown path = some .dir := by
  rw [Tree.isDir_iff]
  show _ ↔ (t.inode? (root ++ path)).map Inode.kind = some .dir
  rw [Option.map_eq_some_iff]
  simp only [Inode.isDir, decide_eq_true_eq]

theorem viewOf_setOwner (root : Path) (t : Tree) (i : ℕ) (uid gid : UInt32) :
    viewOf root (t.amend i (Inode.setOwner uid gid) (Inode.isDir_setOwner uid gid)) = viewOf root t :=
  Tree.view_amend_of_fixed _ fun _ => rfl

end Trees

/-! ### Calls -/

def Item.call (path : Path) (item : Item) : VFSCall :=
  match item.shape with
  | .directory mode => .mkdir path (.unix item.uid item.gid) mode
  | .new flags mode => .create path flags (.unix item.uid item.gid) mode
  | .special mode rdev => .mknod path mode rdev (.unix item.uid item.gid)
  | .symlink target => .symlink target path (.unix item.uid item.gid)
  | .hardlink source => .link source path (.unix item.uid item.gid)

section Runs
variable {host : Host} {t after : Tree} {path source dest : Path} {item : Item}

/-- Where nothing is, an object is made if there is a directory for it and the
call makes any. -/
theorem run_item (host : Host) (absent : t.names.find (host.fspath ++ path) = none) (plain : item.shape.isLink = false) :
    ∃ mode, run host (item.call path) t = item.shape.kind.bind fun kind =>
      (t.create (host.fspath ++ path) (owned host.process kind mode item.uid item.gid)).toOption := by
  obtain ⟨shape, uid, gid⟩ := item
  cases shape with
  | directory mode => exact ⟨mode, run_mkdir host t path mode uid gid⟩
  | new flags mode =>
    refine ⟨mode, ?_⟩
    show run host (.create path flags (.unix uid gid) mode) t = (Shape.new flags mode).kind.bind _
    unfold Shape.kind
    dsimp only
    split
    · next missing => exact run_of_error (congrArg some (xmpCreate_missing absent missing host.process mode uid gid))
    · next creates => exact run_create host absent creates mode uid gid
  | special mode rdev =>
    refine ⟨mode, ?_⟩
    show run host (.mknod path mode rdev (.unix uid gid)) t = (madeKind mode rdev).toOption.bind _
    cases made : madeKind mode rdev with
    | error errno => exact run_of_error (congrArg some (xmpMknod_error made host.process t _ uid gid))
    | ok kind => exact run_mknod host t made path uid gid
  | symlink target =>
    refine ⟨0o777, ?_⟩
    show run host (.symlink target path (.unix uid gid)) t = (Shape.symlink target).kind.bind _
    unfold Shape.kind
    dsimp only
    split
    · next empty =>
      have refused : xmpSymlink host.process t target (host.fspath ++ path) uid gid = (-Errno.enoent.code, t) := by
        rw [xmpSymlink, Tree.symlink, dif_pos empty]
        rfl
      exact run_of_error (congrArg some refused)
    · next filled => exact run_symlink host t filled path uid gid
  | hardlink => cases plain

theorem viewOf_made (ran : run host (item.call path) t = some after)
    (absent : t.names.find (host.fspath ++ path) = none) (plain : item.shape.isLink = false) :
    ∃ kind, item.shape.kind = some kind ∧ viewOf host.fspath after =
      (viewOf host.fspath t).set path (some t.inodes.length) (some kind) := by
  obtain ⟨mode, made⟩ := run_item host absent plain
  rw [made] at ran
  obtain ⟨kind, shape, created⟩ := Option.bind_eq_some_iff.mp ran
  obtain ⟨absent, parent, rfl⟩ := Tree.create_ok (toOption_some created)
  exact ⟨kind, shape, Tree.view_attach Inode.kind absent parent _⟩

theorem run_of_parent (host : Host) (absent : t.names.find (host.fspath ++ path) = none)
    (parent : t.isDir (host.fspath ++ path).dropLast = true) (shape : item.shape.kind = some kind) :
    ∃ after, run host (item.call path) t = some after := by
  obtain ⟨mode, made⟩ := run_item host absent (isLink_of_kind shape)
  rw [made, shape, Option.bind_some, Tree.create_of absent parent]
  exact ⟨_, rfl⟩

/-- What a hard link needs and does. -/
theorem viewOf_linked (ran : run host (.link source dest (.unix uid gid)) t = some after) :
    (viewOf host.fspath t).number source ≠ none ∧ (viewOf host.fspath t).shown source ≠ some .dir ∧
      (viewOf host.fspath t).number dest = none ∧ viewOf host.fspath after = (viewOf host.fspath t).set dest
        ((viewOf host.fspath t).number source) ((viewOf host.fspath t).shown source) := by
  rw [run_link] at ran
  obtain ⟨joined, linked, changed⟩ := bind_ok.mp (toOption_some ran)
  obtain ⟨i, held, kind, absent, parent, rfl⟩ := link_ok linked
  obtain ⟨-, changed⟩ := of_guard changed
  obtain ⟨j, -, rfl⟩ := Tree.change_ok changed
  refine ⟨by rw [show (viewOf host.fspath t).number source = some i from held]; exact nofun, ?_, absent, ?_⟩
  · intro dir
    have kind : t.isDir (host.fspath ++ source) = false := kind
    rw [(isDir_iff_kind source).mpr dir] at kind
    cases kind
  · rw [viewOf_setOwner]
    exact Tree.view_join Inode.kind held kind absent parent

/-- Anything but a directory and a symbolic link can be given a free name in a directory. -/
theorem link_of_firm (host : Host) (uid gid : UInt32) (found : t.names.find (host.fspath ++ source) = some i)
    (shown : (viewOf host.fspath t).shown source = some made) (firm : made ≠ .dir ∧ ∀ target, made ≠ .lnk target)
    (absent : t.names.find (host.fspath ++ dest) = none) (parent : t.isDir (host.fspath ++ dest).dropLast = true) :
    ∃ after, run host (.link source dest (.unix uid gid)) t = some after := by
  have kind : t.isDir (host.fspath ++ source) = false := by
    refine Bool.eq_false_iff.mpr fun dir => firm.1 ?_
    exact Option.some.inj (shown.symm.trans ((isDir_iff_kind source).mp dir))
  have linked : t.link (host.fspath ++ source) (host.fspath ++ dest) = .ok (t.join _ _ i found kind absent parent) := by
    unfold Tree.link
    split
    · next missing => cases found.symm.trans missing
    · next j here =>
      cases found.symm.trans here
      rw [dif_pos absent, dif_pos parent, dif_pos kind]
  have there : (t.join _ _ i found kind absent parent).names.find (host.fspath ++ dest) = some i :=
    SortedMap.find_insert_self ..
  have solid : ((t.join _ _ i found kind absent parent).inode? (host.fspath ++ dest)).any Inode.isLnk = false := by
    have same : (t.join _ _ i found kind absent parent).inode? (host.fspath ++ dest) = t.inode? (host.fspath ++ source) := by
      rw [Tree.inode?, Tree.inode?, inodeIn, inodeIn, there, found]
      rfl
    obtain ⟨node, held, nodeKind⟩ := Option.map_eq_some_iff.mp shown
    rw [same, held, Option.any_some]
    unfold Inode.isLnk
    split
    · next target link => exact absurd (nodeKind.symm.trans link) (firm.2 target)
    · rfl
  have owned : (t.join _ _ i found kind absent parent).chown (host.fspath ++ dest) uid gid =
      .ok ((t.join _ _ i found kind absent parent).amend i (Inode.setOwner uid gid) (Inode.isDir_setOwner uid gid)) := by
    rw [Tree.chown, if_neg (by rw [solid]; exact Bool.false_ne_true)]
    exact Tree.change_of there
  rw [run_link]
  unfold translatePath
  rw [linked, ok_bind, owned]
  exact ⟨_, rfl⟩

theorem viewOf_unlinked (ran : run host (.unlink path) t = some after) (rooted : (viewOf host.fspath t).shown [] = some .dir) :
    path ≠ [] ∧ viewOf host.fspath after = (viewOf host.fspath t).set path none none := by
  rw [run_unlink] at ran
  obtain ⟨-, kind, proper, alone, rfl⟩ := Tree.unlink_ok (toOption_some ran)
  refine ⟨?_, Tree.view_detach Inode.kind proper alone⟩
  rintro rfl
  have kind : t.isDir (host.fspath ++ []) = false := kind
  rw [(isDir_iff_kind []).mpr rooted] at kind
  cases kind

theorem viewOf_rmdir (ran : run host (.rmdir path) t = some after) :
    viewOf host.fspath after = (viewOf host.fspath t).set path none none := by
  rw [run_rmdir] at ran
  obtain ⟨-, proper, alone, rfl⟩ := Tree.rmdir_ok (toOption_some ran)
  exact Tree.view_detach Inode.kind proper alone

/-- All but a `create` fail where something is. -/
theorem absent_of_run (ran : run host (item.call path) t = some after) (plain : item.shape.isLink = false)
    (exclusive : ∀ flags mode, item.shape ≠ .new flags mode) : t.names.find (host.fspath ++ path) = none := by
  have absent {node : Inode} (created : (t.create (host.fspath ++ path) node).toOption = some after) :
      t.names.find (host.fspath ++ path) = none := by
    obtain ⟨absent, -⟩ := Tree.create_ok (toOption_some created)
    exact absent
  obtain ⟨shape, uid, gid⟩ := item
  cases shape with
  | directory mode => exact absent ((run_mkdir host t path mode uid gid).symm.trans ran)
  | new flags mode => exact absurd rfl (exclusive flags mode)
  | special mode rdev =>
    cases made : madeKind mode rdev with
    | error errno =>
      have failed : run host (.mknod path mode rdev (.unix uid gid)) t = none :=
        run_of_error (congrArg some (xmpMknod_error made host.process t _ uid gid))
      cases failed.symm.trans ran
    | ok kind => exact absent ((run_mknod host t made path uid gid).symm.trans ran)
  | symlink target =>
    by_cases empty : target = []
    · have refused : xmpSymlink host.process t target (host.fspath ++ path) uid gid = (-Errno.enoent.code, t) := by
        rw [xmpSymlink, Tree.symlink, dif_pos empty]
        rfl
      have failed : run host (.symlink target path (.unix uid gid)) t = none := run_of_error (congrArg some refused)
      cases failed.symm.trans ran
    · exact absent ((run_symlink host t empty path uid gid).symm.trans ran)
  | hardlink => cases plain

end Runs

/-! ### The table -/

/-- The entry for an object. -/
def Item.file (item : Item) : File :=
  match item.shape with
  | .directory mode => { File.default with
      uid := some item.uid, gid := some item.gid, mode := some mode, ty := .directory }
  | .new flags mode => newFile item.uid item.gid mode flags
  | .special mode rdev => { File.default with
      uid := some item.uid, gid := some item.gid, mode := some mode, ty := .special rdev, data := some .empty }
  | .symlink target => { File.default with uid := some item.uid, gid := some item.gid, ty := .symlink target }
  | .hardlink source => linkedFile item.uid item.gid source .empty

/-- The table of the snapshot is the plan. -/
def Tabled (files : Files) (plan : Plan) : Prop := ∀ path, files.find path = (plan path).map Item.file

/-- No entry is a hard link to `path`. -/
def Unlinked (files : Files) (path : Path) : Prop :=
  ∀ other file, files.find other = some file → file.ty ≠ .hardlink path

/-- The calls that the table can follow. A new file replaces none; a hard link
comes after its source, which is no symbolic link; what hard links refer to is
neither renamed nor replaced nor removed; a hard link is not replaced by a
rename; and nothing lies in what is renamed. -/
def Tracked (files : Files) : VFSCall → Prop
  | .mkdir .. | .mknod .. | .symlink .. => True
  | .create path _ _ _ => path ≠ [] ∧ files.find path = none
  | .link source dest _ => source < dest ∧ ∀ file target, files.find source = some file → file.ty ≠ .symlink target
  | .unlink path => Unlinked files path
  | .rmdir path => path ≠ [] ∧ Unlinked files path
  | .rename source dest _ => source ≠ [] ∧ dest ≠ [] ∧ (source = dest ∨ Unlinked files source ∧ Unlinked files dest ∧
      (∀ file target, files.find dest = some file → file.ty ≠ .hardlink target) ∧
      (∀ file target, files.find source = some file → file.ty = .hardlink target → target < dest) ∧
      ∀ other, source <+: other → other ≠ source → files.find other = none)
  | _ => False

section Tables
variable {files : Files} {plan : Plan} {s : Snapshot} {path : Path} {item : Item}

theorem Tabled.absent_iff (tabled : Tabled files plan) : files.find path = none ↔ plan path = none := by
  rw [tabled path, Option.map_eq_none_iff]

theorem Tabled.found (tabled : Tabled files plan) (planned : plan path = some item) : files.find path = some item.file := by
  rw [tabled path, planned]
  rfl

theorem Tabled.mem_paths (tabled : Tabled files plan) : path ∈ files.entries.map Prod.fst ↔ plan path ≠ none := by
  constructor
  · intro listed
    obtain ⟨⟨_, file⟩, there, rfl⟩ := List.mem_map.mp listed
    have found := SortedMap.mem_entries_iff.mp there
    intro missing
    cases (tabled.absent_iff.mpr missing).symm.trans found
  · intro planned
    obtain ⟨item, planned⟩ := Option.ne_none_iff_exists'.mp planned
    exact List.mem_map.mpr ⟨_, SortedMap.mem_entries_iff.mpr (tabled.found planned), rfl⟩

theorem Tabled.finite (tabled : Tabled files plan) : plan.Finite :=
  (List.finite_toSet (files.entries.map Prod.fst)).subset fun _ planned => tabled.mem_paths.mpr planned

theorem Tabled.insert (tabled : Tabled files plan) (path : Path) (item : Item) :
    Tabled (files.insert path item.file) (Function.update plan path (some item)) := by
  intro other
  rw [SortedMap.find_insert, Function.update_apply, tabled other]
  by_cases here : path = other
  · rw [if_pos here, if_pos here.symm]
    rfl
  · rw [if_neg here, if_neg (Ne.symm here)]

theorem Tabled.erase (tabled : Tabled files plan) (path : Path) :
    Tabled (files.erase path) (Function.update plan path none) := by
  intro other
  rw [SortedMap.find_erase, Function.update_apply, tabled other]
  by_cases here : path = other
  · rw [if_pos here, if_pos here.symm]
    rfl
  · rw [if_neg here, if_neg (Ne.symm here)]

theorem type_hardlink : item.file.ty = .hardlink source ↔ item.shape = .hardlink source := by
  obtain ⟨shape, uid, gid⟩ := item
  cases shape <;> simp [Item.file, newFile, linkedFile]

theorem Tabled.unlinked (tabled : Tabled files plan) (unlinked : Unlinked files path) : plan.Unlinked path :=
  fun other _ planned link => unlinked other _ (tabled.found planned) (type_hardlink.mpr link)

/-- The entry is made, whatever the object. -/
theorem mergeCall_item (absent : s.files.find path = none)
    (shared : ∀ source, item.shape = .hardlink source → sharedData (s.files.find source) = .ok .empty) :
    s.mergeCall (item.call path) = .ok (s.put path item.file) := by
  have fresh (file : File) : s.insertNew path file = .ok (s.put path file) := if_pos absent
  obtain ⟨shape, uid, gid⟩ := item
  cases shape with
  | directory | special | symlink => exact fresh _
  | new => rfl
  | hardlink source =>
    show (sharedData (s.files.find source) >>= _) = _
    rw [shared source rfl, ok_bind]
    exact fresh _

theorem data_of_holdsData (holds : item.shape.holdsData = true) : item.file.data = some .empty := by
  obtain ⟨shape, uid, gid⟩ := item
  cases shape with
  | directory | symlink => cases holds
  | _ => rfl

end Tables

/-! ### Whole histories -/

section Histories
variable {host : Host} {t after : Tree} {s : Snapshot} {plan : Plan} {path : Path} {item : Item} {call : VFSCall}

theorem ne_root (keeps : Keeps (viewOf host.fspath t) plan) (absent : t.names.find (host.fspath ++ path) = none) :
    path ≠ [] := by
  rintro rfl
  have missing := Tree.shown_eq_none.mpr (show (viewOf host.fspath t).number [] = none from absent)
  rw [keeps.rooted] at missing
  cases missing

theorem make_step (tabled : Tabled s.files plan) (keeps : Keeps (viewOf host.fspath t) plan)
    (ran : run host (item.call path) t = some after) (absent : t.names.find (host.fspath ++ path) = none)
    (plain : item.shape.isLink = false) : ∃ s' plan', s.mergeCall (item.call path) = .ok s' ∧ Tabled s'.files plan' ∧
      Keeps (viewOf host.fspath after) plan' := by
  have proper := ne_root keeps absent
  have free : s.files.find path = none := tabled.absent_iff.mpr ((keeps.present path proper).mp absent)
  obtain ⟨kind, shape, view⟩ := viewOf_made ran absent plain
  refine ⟨s.put path item.file, _, mergeCall_item free fun source link => ?_, tabled.insert path item, ?_⟩
  · rw [link] at plain
    cases plain
  · rw [view]
    exact keeps.make proper absent (fun other _ _ => Tree.find_ne_fresh t _) shape

theorem link_step (tabled : Tabled s.files plan) (keeps : Keeps (viewOf host.fspath t) plan)
    (ran : run host (.link source dest (.unix uid gid)) t = some after)
    (tracked : Tracked s.files (.link source dest (.unix uid gid))) :
    ∃ s' plan', s.mergeCall (.link source dest (.unix uid gid)) = .ok s' ∧ Tabled s'.files plan' ∧
      Keeps (viewOf host.fspath after) plan' := by
  obtain ⟨before, firm⟩ := tracked
  obtain ⟨present, file, absent, view⟩ := viewOf_linked ran
  have proper := ne_root keeps absent
  have below : source ≠ [] := by
    rintro rfl
    exact file keeps.rooted
  obtain ⟨other, planned⟩ := Option.ne_none_iff_exists'.mp (mt (keeps.present source below).mpr present)
  have holds : other.shape.holdsData = true := by
    cases shape : other.shape with
    | directory mode =>
      refine absurd ?_ file
      rw [(keeps.made source other planned (by rw [shape]; rfl)).2, shape]
      rfl
    | symlink target =>
      refine absurd ?_ (firm other.file target (tabled.found planned))
      rw [Item.file, shape]
    | _ => rfl
  have free : s.files.find dest = none := tabled.absent_iff.mpr ((keeps.present dest proper).mp absent)
  have merged : s.mergeCall (Item.call dest ⟨.hardlink source, uid, gid⟩) =
      .ok (s.put dest (Item.file ⟨.hardlink source, uid, gid⟩)) := by
    refine mergeCall_item free fun target link => ?_
    cases link
    rw [tabled.found planned, sharedData, data_of_holdsData holds]
  refine ⟨_, _, merged, tabled.insert dest ⟨.hardlink source, uid, gid⟩, ?_⟩
  rw [view]
  exact keeps.link proper absent before planned holds rfl

theorem rename_step (tabled : Tabled s.files plan) (keeps : Keeps (viewOf host.fspath t) plan)
    (ran : run host (.rename source dest flags) t = some after) (tracked : Tracked s.files (.rename source dest flags)) :
    ∃ s' plan', s.mergeCall (.rename source dest flags) = .ok s' ∧ Tabled s'.files plan' ∧
      Keeps (viewOf host.fspath after) plan' := by
  obtain ⟨below, proper, tracked⟩ := tracked
  rw [run_rename] at ran
  obtain ⟨present, outcome⟩ := Tree.rename_cases (toOption_some ran)
  have present : (viewOf host.fspath t).number source ≠ none := present
  obtain ⟨item, planned⟩ := Option.ne_none_iff_exists'.mp (mt (keeps.present source below).mpr present)
  have found := tabled.found planned
  have moved : Tabled (s.rename source dest).files
      (Function.update (Function.update plan source none) dest (some item)) := by
    have files : (s.rename source dest).files = (s.files.erase source).insert dest item.file := by
      unfold Snapshot.rename
      rw [found]
      rfl
    rw [files]
    exact (tabled.erase source).insert dest item
  refine ⟨_, _, rfl, moved, ?_⟩
  rcases tracked with rfl | ⟨unlinked, free, single, before, alone⟩
  · rcases outcome with ⟨-, rfl⟩ | ⟨differ, -⟩
    · have same : Function.update (Function.update plan source none) source (some item) = plan := by
        rw [Function.update_idem, ← planned, Function.update_eq_self]
      rwa [same]
    · exact absurd rfl differ
  · have unlinked := tabled.unlinked unlinked
    have free := tabled.unlinked free
    have moves := keeps.move tabled.finite Tree.coherent_view below proper planned unlinked free fun target link =>
      before item.file target found (type_hardlink.mpr link)
    rcases outcome with ⟨same, rfl⟩ | ⟨differ, bare, apart, parent, rfl⟩
    · -- the object at the target has no second name, so it is at the source
      have same : (viewOf host.fspath after).number source = (viewOf host.fspath after).number dest := same
      obtain ⟨other, planned'⟩ := Option.ne_none_iff_exists'.mp
        (mt (keeps.present dest proper).mpr (same ▸ present))
      have plain : other.shape.isLink = false := by
        by_contra link
        obtain ⟨target, link⟩ := exists_source (Bool.not_eq_false _ ▸ link)
        exact single other.file target (tabled.found planned') (type_hardlink.mpr link)
      have here : source = dest :=
        keeps.unlinked_alone tabled.finite planned' plain free (by rw [planned]; exact nofun) same
      subst here
      have unchanged : Function.update (Function.update plan source none) source (some item) = plan := by
        rw [Function.update_idem, ← planned, Function.update_eq_self]
      rwa [unchanged]
    · rw [show viewOf host.fspath (t.move _ _ apart parent) = _ from Tree.view_move Inode.kind apart parent ?_ ?_]
      · exact moves
      · intro other under apart'
        have missing := alone other under apart'
        have proper' : other ≠ [] := by
          rintro rfl
          exact below (List.prefix_nil.mp under)
        exact (keeps.present other proper').mpr (tabled.absent_iff.mp missing)
      · intro other under apart'
        exact Tree.find_below bare (Tree.prefix_append_iff.mpr under) fun same => apart' (Tree.append_eq_iff.mp same)

/-- One call that is carried out and that the table can follow. -/
theorem step (tabled : Tabled s.files plan) (keeps : Keeps (viewOf host.fspath t) plan)
    (ran : run host call t = some after) (tracked : Tracked s.files call) :
    ∃ s' plan', s.mergeCall call = .ok s' ∧ Tabled s'.files plan' ∧ Keeps (viewOf host.fspath after) plan' := by
  have make (item : Item) (path : Path) (same : call = item.call path) (plain : item.shape.isLink = false)
      (exclusive : ∀ flags mode, item.shape ≠ .new flags mode) :
      ∃ s' plan', s.mergeCall call = .ok s' ∧ Tabled s'.files plan' ∧ Keeps (viewOf host.fspath after) plan' := by
    subst same
    exact make_step tabled keeps ran (absent_of_run ran plain exclusive) plain
  have remove (path : Path) (proper : path ≠ []) (unlinked : Unlinked s.files path)
      (view : viewOf host.fspath after = (viewOf host.fspath t).set path none none) :
      ∃ plan', Tabled (s.remove path).files plan' ∧ Keeps (viewOf host.fspath after) plan' :=
    ⟨_, tabled.erase path, view ▸ keeps.remove proper (tabled.unlinked unlinked)⟩
  cases call with
  | mkdir path security mode =>
    cases security with
    | unix uid gid => exact make ⟨.directory mode, uid, gid⟩ path rfl rfl nofun
    | _ => cases (show none = some after from ran)
  | mknod path mode rdev security =>
    cases security with
    | unix uid gid => exact make ⟨.special mode rdev, uid, gid⟩ path rfl rfl nofun
    | _ => cases (show none = some after from ran)
  | symlink target path security =>
    cases security with
    | unix uid gid => exact make ⟨.symlink target, uid, gid⟩ path rfl rfl nofun
    | _ => cases (show none = some after from ran)
  | create path flags security mode =>
    cases security with
    | unix uid gid =>
      have absent : (viewOf host.fspath t).number path = none :=
        (keeps.present path tracked.1).mpr (tabled.absent_iff.mp tracked.2)
      have made : run host (Item.call path ⟨.new flags mode, uid, gid⟩) t = some after := ran
      exact make_step tabled keeps made absent rfl
    | _ => cases (show none = some after from ran)
  | link source dest security =>
    cases security with
    | unix uid gid => exact link_step tabled keeps ran tracked
    | _ => cases (show none = some after from ran)
  | unlink path =>
    obtain ⟨proper, view⟩ := viewOf_unlinked ran keeps.rooted
    obtain ⟨plan', rest⟩ := remove path proper tracked view
    exact ⟨_, plan', rfl, rest⟩
  | rmdir path =>
    obtain ⟨plan', rest⟩ := remove path tracked.1 tracked.2 (viewOf_rmdir ran)
    exact ⟨_, plan', rfl, rest⟩
  | rename source dest flags => exact rename_step tabled keeps ran tracked
  | _ => exact tracked.elim

/-- All calls, none of which fails. -/
def runAll (host : Host) (t : Tree) (calls : List VFSCall) : Option Tree := calls.foldlM (fun t call => run host call t) t

/-- The table can follow all calls. -/
def TrackedAll (s : Snapshot) : List VFSCall → Prop
  | [] => True
  | call :: rest => Tracked s.files call ∧ ∀ s', s.mergeCall call = .ok s' → TrackedAll s' rest

theorem history_kept (tabled : Tabled s.files plan) (keeps : Keeps (viewOf host.fspath t) plan) {calls : List VFSCall}
    (ran : runAll host t calls = some after) (tracked : TrackedAll s calls) :
    ∃ s' plan', s.mergeFrom calls = .ok s' ∧ Tabled s'.files plan' ∧ Keeps (viewOf host.fspath after) plan' := by
  induction calls generalizing t s plan with
  | nil =>
    cases ran
    exact ⟨s, plan, rfl, tabled, keeps⟩
  | cons call calls ih =>
    rw [runAll, List.foldlM_cons] at ran
    obtain ⟨middle, here, rest⟩ := Option.bind_eq_some_iff.mp ran
    obtain ⟨next, planned, merged, tabled, keeps⟩ := step tabled keeps here tracked.1
    obtain ⟨s', plan', mergedRest, final⟩ := ih tabled keeps rest (tracked.2 next merged)
    exact ⟨s', plan', bind_ok.mpr ⟨next, merged, mergedRest⟩, final⟩

/-- An empty directory, and nothing planned. -/
theorem keeps_empty (rooted : t.isDir host.fspath = true)
    (empty : ∀ path, path ≠ [] → t.names.find (host.fspath ++ path) = none) :
    Keeps (viewOf host.fspath t) fun _ => none where
  rooted := by
    rw [← isDir_iff_kind, List.append_nil]
    exact rooted
  proper := rfl
  present path proper := iff_of_true (empty path proper) rfl
  made _ _ planned := by cases planned
  linked _ _ _ planned := by cases planned
  distinct _ _ _ _ planned := by cases planned

end Histories

/-! ### The replay -/

/-- What the plan makes at a path in the table. -/
def itemAt (plan : Plan) (path : Path) : Item := (plan path).getD ⟨.directory 0, 0, 0⟩

/-- The calls that make the objects at the paths. -/
def makingCalls (plan : Plan) (paths : List Path) : List VFSCall := paths.map fun path => (itemAt plan path).call path

section Replay
variable {host : Host} {t t' after : Tree} {s : Snapshot} {plan part : Plan} {path : Path}

theorem replayFile_item (order : HashOrder) (serialised : ByteFile.File) (path : Path) (item : Item) :
    replayFile order serialised (path, item.file) = .ok [item.call path] := by
  obtain ⟨shape, uid, gid⟩ := item
  cases shape <;> rfl

/-- One call for each entry, in the order of the paths. -/
theorem produces_plan (order : HashOrder) (tabled : Tabled s.files plan) :
    Produces order (SnapshotReplay.apply s) (makingCalls plan (s.files.entries.map Prod.fst)) := by
  have each : ∀ entry ∈ s.files.entries,
      replayFile order s.serialised entry = .ok [(itemAt plan entry.1).call entry.1] := by
    intro entry listed
    have found := SortedMap.mem_entries_iff.mp listed
    rw [tabled entry.1] at found
    obtain ⟨item, planned, same⟩ := Option.map_eq_some_iff.mp found
    have here : itemAt plan entry.1 = item := by rw [itemAt, planned, Option.getD_some]
    rw [here, ← replayFile_item order s.serialised entry.1 item, same]
  rw [produces_apply]
  unfold makingCalls
  generalize s.files.entries = entries at each
  induction entries with
  | nil => exact ⟨[], rfl, rfl⟩
  | cons entry entries ih =>
    obtain ⟨parts, mapped, flat⟩ := ih fun other listed => each other (List.mem_cons_of_mem _ listed)
    refine ⟨_, mapM_cons_ok.mpr ⟨_, parts, each entry List.mem_cons_self, mapped, rfl⟩, ?_⟩
    rw [List.flatten_cons, ← flat]
    rfl

theorem dropLast_lt (proper : path ≠ []) : path.dropLast < path := by
  obtain ⟨front, name, rfl⟩ := (List.eq_nil_or_concat path).resolve_left proper
  rw [List.concat_eq_append, List.dropLast_concat]
  induction front with
  | nil => exact List.nil_lt_cons ..
  | cons head front ih => exact List.cons_lt_cons_self.mpr (ih (by simp))

/-- Everything before a path has been made, its directory too. -/
theorem parent_made (finite : plan.Finite) (keeps : Keeps (viewOf host.fspath t) plan)
    (keeps' : Keeps (viewOf host.fspath t') part) (within : ∀ path item, part path = some item → plan path = some item)
    (earlier : ∀ other < path, plan other ≠ none → part other ≠ none) (planned : plan path = some item) :
    t'.isDir (host.fspath ++ path).dropLast = true := by
  have proper : path ≠ [] := by
    rintro rfl
    cases keeps.proper.symm.trans planned
  obtain ⟨i, found⟩ := Option.ne_none_iff_exists'.mp (keeps.number_ne_none planned)
  have parent : t.isDir (host.fspath ++ path).dropLast = true := t.closed _ i (by simp [proper]) found
  rw [List.dropLast_append_of_ne_nil proper, isDir_iff_kind] at parent ⊢
  by_cases root : path.dropLast = []
  · rw [root]
    exact keeps'.rooted
  · have planned : plan path.dropLast ≠ none := by
      intro missing
      rw [Tree.shown_eq_none.mpr ((keeps.present _ root).mpr missing)] at parent
      cases parent
    have same := keeps.kind_eq finite keeps' Tree.coherent_view Tree.coherent_view within
      (earlier _ (dropLast_lt proper) planned)
    rw [← same, parent]

/-- Each object can be made when its turn comes. -/
theorem make_next (finite : plan.Finite) (keeps : Keeps (viewOf host.fspath t) plan)
    (keeps' : Keeps (viewOf host.fspath t') part) (within : ∀ path item, part path = some item → plan path = some item)
    (earlier : ∀ other < path, plan other ≠ none → part other ≠ none) (planned : plan path = some item)
    (missing : part path = none) : ∃ after, run host (item.call path) t' = some after ∧
      Keeps (viewOf host.fspath after) (Function.update part path (some item)) := by
  have proper : path ≠ [] := by
    rintro rfl
    cases keeps.proper.symm.trans planned
  have absent : t'.names.find (host.fspath ++ path) = none := (keeps'.present path proper).mpr missing
  have parent := parent_made finite keeps keeps' within earlier planned
  cases link : item.shape.isLink with
  | false =>
    obtain ⟨kind, shape⟩ := Option.ne_none_iff_exists'.mp (keeps.made path item planned link).1
    obtain ⟨after, ran⟩ := run_of_parent host absent parent shape
    obtain ⟨kind', shape', view⟩ := viewOf_made ran absent link
    refine ⟨after, ran, ?_⟩
    rw [view]
    exact keeps'.make proper absent (fun other _ _ => Tree.find_ne_fresh t' _) shape'
  | true =>
    obtain ⟨source, link⟩ := exists_source link
    obtain ⟨before, -, other, found, holds⟩ := keeps.linked path item source planned link
    have made : part source = some other := by
      obtain ⟨own, there⟩ := Option.ne_none_iff_exists'.mp (earlier source before (by rw [found]; exact nofun))
      rw [there, ← within source own there, found]
    have smaller : part.Finite := finite.subset fun path planned => by
      obtain ⟨item, planned⟩ := Option.ne_none_iff_exists'.mp planned
      show plan path ≠ none
      rw [within path item planned]
      exact nofun
    obtain ⟨kind, shown, firm⟩ := keeps'.firm smaller Tree.coherent_view made holds
    obtain ⟨i, number⟩ := Option.ne_none_iff_exists'.mp (keeps'.number_ne_none made)
    obtain ⟨after, ran⟩ := link_of_firm host item.uid item.gid number shown firm absent parent
    have call : item.call path = .link source path (.unix item.uid item.gid) := by rw [Item.call, link]
    refine ⟨after, call ▸ ran, ?_⟩
    rw [(viewOf_linked ran).2.2.2]
    exact keeps'.link proper absent before made holds link

/-- The rest of the paths, in their order. -/
theorem replay_from (finite : plan.Finite) (keeps : Keeps (viewOf host.fspath t) plan) {paths : List Path}
    (sorted : paths.Pairwise (· < ·)) (listed : ∀ path ∈ paths, plan path ≠ none ∧ part path = none)
    (rest : ∀ path, plan path ≠ none → part path ≠ none ∨ path ∈ paths)
    (within : ∀ path item, part path = some item → plan path = some item)
    (keeps' : Keeps (viewOf host.fspath t') part) :
    ∃ after, runAll host t' (makingCalls plan paths) = some after ∧ Keeps (viewOf host.fspath after) plan := by
  induction paths generalizing t' part with
  | nil =>
    refine ⟨t', rfl, ?_⟩
    have whole : part = plan := by
      funext path
      cases made : part path with
      | some item => exact (within path item made).symm
      | none =>
        by_contra planned
        exact ((rest path (Ne.symm planned)).resolve_right List.not_mem_nil) made
    rwa [← whole]
  | cons path paths ih =>
    obtain ⟨first, sorted⟩ := List.pairwise_cons.mp sorted
    obtain ⟨planned, missing⟩ := listed path List.mem_cons_self
    obtain ⟨item, planned⟩ := Option.ne_none_iff_exists'.mp planned
    have earlier : ∀ other < path, plan other ≠ none → part other ≠ none := by
      intro other before there
      refine (rest other there).resolve_right fun later => ?_
      rcases List.mem_cons.mp later with rfl | later
      · exact lt_irrefl _ before
      · exact lt_asymm before (first other later)
    obtain ⟨next, ran, keepsNext⟩ := make_next finite keeps keeps' within earlier planned missing
    have result := ih sorted ?_ ?_ ?_ keepsNext
    · obtain ⟨after, ranRest, final⟩ := result
      refine ⟨after, ?_, final⟩
      have here : itemAt plan path = item := by rw [itemAt, planned, Option.getD_some]
      unfold runAll makingCalls at ranRest ⊢
      rw [List.map_cons, List.foldlM_cons, here, ran]
      exact ranRest
    · intro other later
      refine ⟨(listed other (List.mem_cons_of_mem _ later)).1, ?_⟩
      rw [Function.update_of_ne (first other later).ne']
      exact (listed other (List.mem_cons_of_mem _ later)).2
    · intro other there
      by_cases same : other = path
      · rw [same, Function.update_self]
        exact .inl nofun
      · rw [Function.update_of_ne same]
        exact (rest other there).imp_right fun later => (List.mem_cons.mp later).resolve_left same
    · intro other own there
      rw [Function.update_apply] at there
      split at there
      · next same =>
        cases there
        rw [same, planned]
      · exact within other own there

end Replay

/-- A history on an empty directory, of which every call is carried out and the
table can follow every call: it is merged, every call of the replay is carried
out on the empty directory, and leaves the same paths with the same types and
targets and the same hard links as the history itself. -/
theorem names_replayed (host : Host) (t before : Tree) (order : HashOrder) (toFile : ByteFile.File)
    (now : JournalStore.SystemTime) (calls : List VFSCall) (rooted : t.isDir host.fspath = true)
    (empty : ∀ path, path ≠ [] → t.names.find (host.fspath ++ path) = none) (ran : runAll host t calls = some before)
    (tracked : TrackedAll (Snapshot.new toFile now) calls) :
    ∃ s replay after, (Snapshot.new toFile now).mergeFrom calls = .ok s ∧
      Produces order (SnapshotReplay.apply s) replay ∧ runAll host t replay = some after ∧
      (viewOf host.fspath before).Alike (viewOf host.fspath after) := by
  have start := keeps_empty rooted empty
  have nothing : Tabled (Snapshot.new toFile now).files fun _ => none := fun _ => rfl
  obtain ⟨s, plan, merged, tabled, keeps⟩ := history_kept nothing start ran tracked
  have finite := tabled.finite
  have sorted : (s.files.entries.map Prod.fst).Pairwise (· < ·) := List.pairwise_map.mpr s.files.sorted
  obtain ⟨after, replayed, keeps'⟩ := replay_from finite keeps sorted (fun path there => ⟨tabled.mem_paths.mp there, rfl⟩)
    (fun path planned => .inr (tabled.mem_paths.mpr planned)) (fun _ _ planned => by cases planned) start
  exact ⟨s, _, after, merged, produces_plan order tabled, replayed,
    keeps.alike finite keeps' Tree.coherent_view Tree.coherent_view (fun _ => Tree.shown_eq_none.mpr)
      fun _ => Tree.shown_eq_none.mpr⟩

/-- A second name of a file is renamed. -/
def linkMoved : List VFSCall :=
  [.mkdir [[100]] (.unix 0 0) 0o755, .create [[100], [102]] 64 (.unix 0 0) 0o644,
    .link [[100], [102]] [[100], [103]] (.unix 0 0), .rename [[100], [103]] [[100], [104]] 0]

theorem link_moved_replayed : ∃ s replay before after, (Snapshot.new [] epoch).mergeFrom linkMoved = .ok s ∧
    Produces ⟨id, fun _ => .refl _⟩ (SnapshotReplay.apply s) replay ∧ runAll plainHost emptyStore linkMoved = some before ∧
    runAll plainHost emptyStore replay = some after ∧ (viewOf [] before).Alike (viewOf [] after) ∧
    (viewOf [] before).number [[100], [102]] = (viewOf [] before).number [[100], [104]] := by
  have tracked : TrackedAll (Snapshot.new [] epoch) linkMoved := by
    refine ⟨trivial, fun _ merged => ?_⟩
    cases merged
    refine ⟨⟨nofun, rfl⟩, fun _ merged => ?_⟩
    cases merged
    refine ⟨⟨by decide, fun file target found => ?_⟩, fun _ merged => ?_⟩
    · cases found
      exact nofun
    cases merged
    have table {other : Path} {file : File} (listed : (other, file) ∈
        [([[100]], Item.file ⟨.directory 0o755, 0, 0⟩), ([[100], [102]], Item.file ⟨.new 64 0o644, 0, 0⟩),
          ([[100], [103]], Item.file ⟨.hardlink [[100], [102]], 0, 0⟩)]) :
        other = [[100]] ∧ file.ty = .directory ∨ other = [[100], [102]] ∧ file.ty = .new 64 ∨
          other = [[100], [103]] ∧ file.ty = .hardlink [[100], [102]] := by
      simp only [List.mem_cons, List.not_mem_nil, or_false, Prod.mk.injEq] at listed
      rcases listed with ⟨rfl, rfl⟩ | ⟨rfl, rfl⟩ | ⟨rfl, rfl⟩
      · exact .inl ⟨rfl, rfl⟩
      · exact .inr (.inl ⟨rfl, rfl⟩)
      · exact .inr (.inr ⟨rfl, rfl⟩)
    have only {other path : Path} {file : File} (listed : other = [[100]] ∧ file.ty = .directory ∨
        other = [[100], [102]] ∧ file.ty = .new 64 ∨ other = [[100], [103]] ∧ file.ty = .hardlink [[100], [102]])
        (link : file.ty = .hardlink path) : other = [[100], [103]] ∧ path = [[100], [102]] := by
      rcases listed with ⟨-, type⟩ | ⟨-, type⟩ | ⟨rfl, type⟩
      · cases type.symm.trans link
      · cases type.symm.trans link
      · cases type.symm.trans link
        exact ⟨rfl, rfl⟩
    refine ⟨⟨nofun, nofun, .inr ⟨?_, ?_, ?_, ?_, ?_⟩⟩, fun _ _ => trivial⟩
    · intro other file found link
      cases (only (table (SortedMap.mem_entries_iff.mpr found)) link).2
    · intro other file found link
      cases (only (table (SortedMap.mem_entries_iff.mpr found)) link).2
    · intro file target found link
      cases (only (table (SortedMap.mem_entries_iff.mpr found)) link).1
    · intro file target found link
      cases (only (table (SortedMap.mem_entries_iff.mpr found)) link).2
      decide
    · intro other below differ
      by_contra there
      obtain ⟨file, found⟩ := Option.ne_none_iff_exists'.mp there
      rcases table (SortedMap.mem_entries_iff.mpr found) with ⟨rfl, -⟩ | ⟨rfl, -⟩ | ⟨rfl, -⟩
      · exact absurd below (by decide)
      · exact absurd below (by decide)
      · exact differ rfl
  have empty : ∀ path, path ≠ [] → emptyStore.names.find ([] ++ path) = none := by
    intro path proper
    exact SortedMap.find_insert_of_ne _ (Ne.symm proper) 0
  obtain ⟨before, ran⟩ : ∃ before, runAll plainHost emptyStore linkMoved = some before := ⟨_, rfl⟩
  obtain ⟨s, replay, after, merged, produced, replayed, alike⟩ := names_replayed plainHost emptyStore before
    ⟨id, fun _ => .refl _⟩ [] epoch linkMoved rfl empty ran tracked
  refine ⟨s, replay, before, after, merged, produced, ran, replayed, alike, ?_⟩
  cases ran
  rfl

/-- A directory is renamed with a file in it. -/
def directoryMoved : List VFSCall :=
  [.mkdir [[100]] (.unix 0 0) 0o755, .create [[100], [102]] 64 (.unix 0 0) 0o644, .rename [[100]] [[101]] 0]

/-- The replay makes the file first, in a directory that is not there. -/
theorem moved_directory_not_replayed : ∃ s before, (Snapshot.new [] epoch).mergeFrom directoryMoved = .ok s ∧
    runAll plainHost emptyStore directoryMoved = some before ∧
    (viewOf [] before).shown [[101], [102]] = some (.reg []) ∧
    ∀ order, Produces order (SnapshotReplay.apply s)
        [.create [[100], [102]] 64 (.unix 0 0) 0o644, .mkdir [[101]] (.unix 0 0) 0o755] ∧
      run plainHost (.create [[100], [102]] 64 (.unix 0 0) 0o644) emptyStore = none := by
  refine ⟨_, _, rfl, rfl, rfl, fun order => ⟨?_, rfl⟩⟩
  rw [produces_apply]
  exact ⟨_, rfl, rfl⟩

end Fsyncer.SnapshotNames
