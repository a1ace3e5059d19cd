import Fsyncer.FuseLl
import Fsyncer.Base.Interleaving

/-! The references that the kernel holds to inodes. It is given one with every
entry in a reply and gives them back by forgetting. The file system counts one
reference too many for every inode it makes, and closes the descriptor that it
has just put into it. -/
namespace Fsyncer.FuseLookups
open FileTree (Name)
open FuseHost FuseLl Machine Interleaving

inductive Request where
  | lookup (parent : Nat) (name : Name)
  | mknod (parent : Nat) (name : Name) (mode : UInt32)
  | mkdir (parent : Nat) (name : Name) (mode : UInt32)
  | symlink (link : Name) (parent : Nat) (name : Name)
  | create (parent : Nat) (name : Name) (mode : UInt32)
  | link (ino newparent : Nat) (newname : Name)
  | readdirplus (ino : Nat) (size : UInt64) (stream : List Dirent) (failed : Option Errno)
  | forget (ino nlookup : Nat)

def serve (w : World) : Request → Outcome
  | .lookup parent name => w.lookup parent name
  | .mknod parent name mode => w.mknod parent name mode
  | .mkdir parent name mode => w.mkdir parent name mode
  | .symlink link parent name => w.symlink link parent name
  | .create parent name mode => w.create parent name mode
  | .link ino newparent newname => w.link ino newparent newname
  | .readdirplus ino size stream failed => w.readdirplus ino size.toNat stream failed
  | .forget ino nlookup => do
    let w ← w.forget ino nlookup
    return (.none, w)

def handedIn : List Direntry → List Nat
  | [] => []
  | .plain .. :: rest => handedIn rest
  | .plus _ entry _ :: rest => entry.ino :: handedIn rest

/-- The inodes that a reply gives references to. -/
def handed : FuseReply → List Nat
  | .entry entry => [entry.ino]
  | .create entry _ => [entry.ino]
  | .buf entries => handedIn entries
  | _ => []

def Request.forgets (ino : Nat) : Request → Nat
  | .forget other nlookup => if other = ino then nlookup else 0
  | _ => 0

/-- The file system with the references given to the kernel and forgotten by it. -/
structure Session where
  world : World
  given : Nat → Nat
  forgotten : Nat → Nat

def Session.step (s : Session) (request : Request) : Except Fault Session := do
  let (reply, world) ← serve s.world request
  return {
    world
    given := fun ino => s.given ino + (handed reply).count ino
    forgotten := fun ino => s.forgotten ino + request.forgets ino }

/-- The kernel forgets no more references than it was given. -/
def Legal (s : Session) (request : Request) : Prop :=
  ∀ ino, s.forgotten ino + request.forgets ino ≤ s.given ino

structure Counted (s : Session) : Prop where
  exact : ∀ id ptr inode, s.world.fs.inodes id = some ptr → s.world.fs.boxes ptr = some inode →
    inode.nlookup + s.forgotten ptr = s.given ptr
  present : ∀ ptr ≠ fuseRootId, (∃ id, s.world.fs.inodes id = some ptr) ↔ s.forgotten ptr < s.given ptr
  held : ∀ id ptr inode, s.world.fs.inodes id = some ptr → s.world.fs.boxes ptr = some inode →
    (s.world.host.descriptor inode.fd).isSome
  asserted : ∀ request, Legal s request → serve s.world request ≠ .error .negativeLookupCount

/-- The file system as it is mounted: no inode but the root's, whose descriptor is that of a directory. -/
structure Mounted (w : World) : Prop where
  inodes : ∀ id, w.fs.inodes id = none
  boxes : ∀ ptr, w.fs.boxes ptr = none
  heap : fuseRootId < w.fs.heap
  root : ∃ id attributes, w.host.descriptor w.fs.root.fd = some id ∧ w.host.files id = some attributes ∧
    attributes.mode &&& sIfmt = sIfdir

def start (w : World) : Session := ⟨w, fun _ => 0, fun _ => 0⟩

/-- The name leads to a file that the table can take. -/
def Resolves (w : World) (parent : Nat) (name : Name) : Prop :=
  ∃ inode found host, w.fs.getInode parent = .ok inode ∧ w.resolve inode name = (.ok found, host)

/-- The system call that makes an entry is carried out, and the entry can be taken. -/
def Makes (w : World) (parent : Nat) (name : Name) (make : Host → Int → Except Errno α × Host) : Prop :=
  ∃ inode value host, w.fs.getInode parent = .ok inode ∧ make w.host inode.fd = (.ok value, host) ∧
    Resolves (w.withHost host) parent name

/-- The first entry that is not a directory's own or its parent's can be taken. -/
def FindsIn (w : World) (ino : Nat) (stream : List Dirent) : Prop :=
  ∃ entry, stream.find? (fun entry => !World.isDotOrDotdot entry.dName) = some entry ∧ Resolves w ino entry.dName

/-- The request gets to an entry that it can give to the kernel. -/
def Finds (w : World) : Request → Prop
  | .lookup parent name => Resolves w parent name
  | .mknod parent name mode => Makes w parent name fun host fd => host.mknodat fd name mode
  | .mkdir parent name mode => Makes w parent name fun host fd => host.mkdirat fd name mode
  | .symlink link parent name => Makes w parent name fun host fd => host.symlinkat link fd name
  | .create parent name mode => Makes w parent name fun host fd => host.openCreate fd name mode
  | .link .. => False
  | .readdirplus ino _ stream _ => FindsIn w ino stream
  | .forget .. => False

/-- Every box counts one reference more than `list` has. -/
structure Surplus (fs : Fs) (list : List Nat) : Prop where
  boxed : ∀ id ptr, fs.inodes id = some ptr → ∃ inode, fs.boxes ptr = some inode
  counted : ∀ ptr inode, fs.boxes ptr = some inode → inode.nlookup = list.count ptr + 1
  below : ∀ ptr inode, fs.boxes ptr = some inode → fuseRootId < ptr ∧ ptr < fs.heap
  heap : fuseRootId < fs.heap
  listed : ∀ ptr ∈ list, ptr < fs.heap

variable {w after : World} {fs fs' : Fs} {list list' : List Nat} {inode inode' : Inode} {id : SrcId}
  {host : Host}

theorem Surplus.insert (surplus : Surplus fs list) (inode : Inode) (new : inode.nlookup = 1) :
    Surplus (fs.insert inode) list where
  boxed id ptr found := by
    simp only [Fs.insert, Fs.setBox, Fs.setEntry] at found ⊢
    split at found
    · cases found
      exact ⟨inode, if_pos rfl⟩
    · split
      · exact ⟨inode, rfl⟩
      · exact surplus.boxed id ptr found
  counted ptr other held := by
    simp only [Fs.insert, Fs.setBox, Fs.setEntry] at held
    split at held
    · rename_i fresh
      cases held
      have unlisted : ptr ∉ list := fun member => Nat.ne_of_lt (surplus.listed ptr member) fresh
      rw [new, List.count_eq_zero_of_not_mem unlisted]
    · exact surplus.counted ptr other held
  below ptr other held := by
    simp only [Fs.insert, Fs.setBox, Fs.setEntry] at held ⊢
    split at held
    · rename_i fresh
      exact ⟨fresh ▸ surplus.heap, fresh ▸ Nat.lt_succ_self _⟩
    · exact ⟨(surplus.below ptr other held).1, Nat.lt_succ_of_lt (surplus.below ptr other held).2⟩
  heap := Nat.lt_succ_of_lt surplus.heap
  listed ptr member := Nat.lt_succ_of_lt (surplus.listed ptr member)

/-- A box whose count changes as the list does. -/
theorem Surplus.setBox (surplus : Surplus fs list) (held : fs.boxes ptr = some inode)
    (others : ∀ other ≠ ptr, list'.count other = list.count other) (own : inode'.nlookup = list'.count ptr + 1)
    (listed : ∀ ptr ∈ list', ptr < fs.heap) : Surplus (fs.setBox ptr (some inode')) list' where
  boxed id other found := by
    simp only [Fs.setBox]
    split
    · exact ⟨inode', rfl⟩
    · exact surplus.boxed id other found
  counted other box is := by
    simp only [Fs.setBox] at is
    split at is
    · rename_i same
      cases is
      rw [same, own]
    · rename_i different
      rw [others other different]
      exact surplus.counted other box is
  below other box is := by
    simp only [Fs.setBox] at is
    split at is
    · rename_i same
      exact same ▸ surplus.below ptr inode held
    · exact surplus.below other box is
  heap := surplus.heap
  listed := listed

theorem Surplus.orInsert (surplus : Surplus fs list) (inserted : fs.orInsert parent name newfd attr = .ok (ptr, fs')) :
    Surplus fs' list ∧ fs'.inodes attr.id = some ptr := by
  simp only [Fs.orInsert] at inserted
  split at inserted
  · rename_i found
    cases inserted
    exact ⟨surplus, found⟩
  · split at inserted
    · cases inserted
      exact ⟨surplus.insert _ rfl, if_pos rfl⟩
    · cases inserted

theorem Surplus.countUp (surplus : Surplus fs list) (small : list.length + 2 < 2 ^ 64)
    (up : fs.countUp ptr = .ok fs') : Surplus fs' (list ++ [ptr]) ∧ fs'.inodes = fs.inodes := by
  simp only [Fs.countUp] at up
  split at up
  · rename_i inode held
    cases up
    have few : list.count ptr ≤ list.length := List.count_le_length
    refine ⟨surplus.setBox held (fun other different => ?_) ?_ ?_, rfl⟩
    · simp [List.count_append, Ne.symm different]
    · rw [surplus.counted ptr inode held, u64_of_lt (by omega)]
      simp [List.count_append]
    · intro other member
      rcases List.mem_append.mp member with old | new
      · exact surplus.listed other old
      · exact List.mem_singleton.mp new ▸ (surplus.below ptr inode held).2
  · cases up

def Filled (fs : Fs) : Prop := ∃ id ptr, fs.inodes id = some ptr

theorem lookup_surplus (surplus : Surplus w.fs list) (small : list.length + 2 < 2 ^ 64)
    (done : w.lookup parent name = .ok (.entry e, after)) :
    Surplus after.fs (list ++ [e.ino]) ∧ ∃ id, after.fs.inodes id = some e.ino := by
  obtain ⟨inode, -, ⟨_, _, _, failed, _⟩ | ⟨newfd, attr, host, ptr, fs, -, inserted, up, given, -⟩⟩ :=
    lookup_cases done
  · cases failed
  · cases given
    obtain ⟨inserted, found⟩ := surplus.orInsert inserted
    obtain ⟨counted, same⟩ := inserted.countUp small up
    exact ⟨counted, attr.id, by rw [same]; exact found⟩

/-- Taking back a reference that was just given. -/
theorem forget_surplus (surplus : Surplus w.fs (list ++ [ptr])) (found : w.fs.inodes id = some ptr) :
    w.forget ptr 1 ≠ .error .negativeLookupCount ∧
      ∀ after, w.forget ptr 1 = .ok after → Surplus after.fs list ∧ after.fs.inodes = w.fs.inodes := by
  obtain ⟨inode, held⟩ := surplus.boxed id ptr found
  have count := surplus.counted ptr inode held
  rw [List.count_append, List.count_singleton_self] at count
  have other : ptr ≠ fuseRootId := Nat.ne_of_gt (surplus.below ptr inode held).1
  simp only [World.forget, Fs.getInode, if_neg other, held]
  split
  · exact ⟨by simp [error_bind], by simp [error_bind]⟩
  · simp only [ok_bind, count]
    rw [if_neg (by omega), if_neg (by omega)]
    refine ⟨nofun, fun after done => ?_⟩
    cases done
    simp only [World.withFs, Fs.setInode, if_neg other]
    refine ⟨surplus.setBox held (fun third different => ?_) (by simp) fun third member => ?_, rfl⟩
    · simp [List.count_append, Ne.symm different]
    · exact surplus.listed third (List.mem_append_left _ member)

theorem getInode_ne_negative (fs : Fs) (ino : Nat) : fs.getInode ino ≠ .error .negativeLookupCount := by
  simp only [Fs.getInode]
  split
  · nofun
  · split
    · nofun
    · split <;> nofun

theorem lookup_ne_negative (w : World) (parent : Nat) (name : Name) :
    w.lookup parent name ≠ .error .negativeLookupCount := by
  intro fault
  obtain unknown | ⟨inode, -, fault⟩ := bind_eq_error.mp fault
  · exact getInode_ne_negative _ _ unknown
  · split at fault
    · cases fault
    · obtain refused | ⟨⟨ptr, fs⟩, -, fault⟩ := bind_eq_error.mp fault
      · simp only [Fs.orInsert] at refused
        split at refused
        · cases refused
        · split at refused <;> cases refused
      · obtain refused | ⟨fs, -, fault⟩ := bind_eq_error.mp fault
        · simp only [Fs.countUp] at refused
          split at refused <;> cases refused
        · cases fault

theorem made_ne_negative (w : World) (parent : Nat) (name : Name) (make : Host → Int → Except Errno Unit × Host) :
    w.made parent name make ≠ .error .negativeLookupCount := by
  intro fault
  obtain unknown | ⟨inode, -, fault⟩ := bind_eq_error.mp fault
  · exact getInode_ne_negative _ _ unknown
  · split at fault
    · cases fault
    · exact lookup_ne_negative _ parent name fault

theorem create_ne_negative (w : World) (parent : Nat) (name : Name) (mode : UInt32) :
    w.create parent name mode ≠ .error .negativeLookupCount := by
  intro fault
  obtain unknown | ⟨inode, -, fault⟩ := bind_eq_error.mp fault
  · exact getInode_ne_negative _ _ unknown
  · split at fault
    · cases fault
    · obtain looked | ⟨outcome, -, fault⟩ := bind_eq_error.mp fault
      · exact lookup_ne_negative _ parent name looked
      · split at fault <;> cases fault

theorem link_ne_negative (w : World) (ino newparent : Nat) (newname : Name) :
    w.link ino newparent newname ≠ .error .negativeLookupCount := by
  intro fault
  obtain unknown | ⟨inode, -, fault⟩ := bind_eq_error.mp fault
  · exact getInode_ne_negative _ _ unknown
  · obtain unknown | ⟨parent, -, fault⟩ := bind_eq_error.mp fault
    · exact getInode_ne_negative _ _ unknown
    · split at fault
      · split at fault <;> cases fault
      · split at fault <;> cases fault

theorem length_handedIn (entries : List Direntry) : (handedIn entries).length ≤ entries.length := by
  induction entries with
  | nil => exact Nat.le_refl 0
  | cons entry rest ih => cases entry <;> simp only [handedIn, List.length_cons] <;> omega

theorem handedIn_append_plus (name : Name) (off : Int64) (entries : List Direntry) :
    handedIn (entries ++ [.plus name e off]) = handedIn entries ++ [e.ino] := by
  induction entries with
  | nil => rfl
  | cons entry rest ih => cases entry <;> simp [handedIn, ih]

theorem le_direntrySize (name : Name) : 152 ≤ World.direntrySize true name := by
  simp only [World.direntrySize, if_true]
  omega

/-- However a listing ends, every box counts one reference more than the listing has. -/
theorem readdirLoop_surplus {ino size : Nat} {failed : Option Errno} (small : size < 2 ^ 64) (stream : List Dirent) :
    ∀ done cSize w, Surplus w.fs (handedIn done) → done.length * 152 ≤ cSize → cSize ≤ size →
      World.readdirLoop ino size true failed stream done cSize w ≠ .error .negativeLookupCount ∧
      ∀ reply after, World.readdirLoop ino size true failed stream done cSize w = .ok (reply, after) →
        (∃ list, Surplus after.fs list ∧ (handed reply = list ∨ handed reply = [])) ∧
        (Filled w.fs ∨ FindsIn w ino stream → Filled after.fs) := by
  induction stream with
  | nil =>
    intro done cSize w surplus room full
    have nothing : ¬ FindsIn w ino [] := fun ⟨_, never, _⟩ => nomatch never
    simp only [World.readdirLoop]
    split
    · refine ⟨nofun, fun reply after ends => ?_⟩
      cases ends
      exact ⟨⟨_, surplus, .inr rfl⟩, fun filled => filled.resolve_right nothing⟩
    · split
      · refine ⟨nofun, fun reply after ends => ?_⟩
        cases ends
        exact ⟨⟨_, surplus, .inr rfl⟩, fun filled => filled.resolve_right nothing⟩
      · refine ⟨nofun, fun reply after ends => ?_⟩
        cases ends
        exact ⟨⟨_, surplus, .inl rfl⟩, fun filled => filled.resolve_right nothing⟩
  | cons entry rest ih =>
    intro done cSize w surplus room full
    simp only [World.readdirLoop]
    by_cases dot : World.isDotOrDotdot entry.dName
    · have skipped : FindsIn w ino (entry :: rest) ↔ FindsIn w ino rest := by simp [FindsIn, dot]
      rw [if_pos dot, skipped]
      exact ih done cSize w surplus room full
    · have first : FindsIn w ino (entry :: rest) ↔ Resolves w ino entry.dName := by simp [FindsIn, dot]
      rw [if_neg dot, if_pos trivial, first]
      have fits : (handedIn done).length + 2 < 2 ^ 64 := by
        have bound := length_handedIn done
        omega
      cases looked : w.lookup ino entry.dName with
      | error fault =>
        refine ⟨?_, fun reply after ends => by cases ends⟩
        rintro ⟨⟩
        exact lookup_ne_negative w ino entry.dName looked
      | ok outcome =>
        obtain ⟨answer, next⟩ := outcome
        obtain ⟨inode, known, ⟨errno, host, failed, rfl, rfl⟩ | ⟨newfd, attr, host, ptr, fs, -, -, -, rfl, -⟩⟩ :=
          lookup_cases looked
        · refine ⟨nofun, fun reply after ends => ?_⟩
          cases ends
          refine ⟨⟨_, surplus, .inr rfl⟩, fun filled => filled.resolve_right ?_⟩
          rintro ⟨other, found, host', same, resolved⟩
          cases known.symm.trans same
          cases failed.symm.trans resolved
        · obtain ⟨more, id, found⟩ := lookup_surplus surplus fits looked
          have least := le_direntrySize entry.dName
          have filled : Filled next.fs := ⟨id, ptr, found⟩
          by_cases crowded : size - cSize < World.direntrySize true entry.dName
          · -- the buffer is full, and the reference is taken back
            obtain ⟨asserted, takenBack⟩ := forget_surplus more found
            simp only [if_pos crowded]
            cases taken : next.forget (w.entryParam ptr attr).ino 1 with
            | error fault =>
              refine ⟨?_, fun reply after ends => by cases ends⟩
              rintro ⟨⟩
              exact asserted taken
            | ok last =>
              obtain ⟨fewer, same⟩ := takenBack last taken
              refine ⟨nofun, fun reply after ends => ?_⟩
              cases ends
              exact ⟨⟨_, fewer, .inl rfl⟩, fun _ => ⟨id, ptr, same ▸ found⟩⟩
          · simp only [if_neg crowded]
            rw [← handedIn_append_plus entry.dName entry.dOff] at more
            obtain ⟨asserted, goes⟩ := ih _ (cSize + World.direntrySize true entry.dName) next more
              (by simp only [List.length_append, List.length_singleton]; omega) (by omega)
            exact ⟨asserted, fun reply after ends => ⟨(goes reply after ends).1,
              fun _ => (goes reply after ends).2 (.inl filled)⟩⟩

theorem Mounted.surplus (mounted : Mounted w) : Surplus w.fs [] where
  boxed id _ found := nomatch (mounted.inodes id).symm.trans found
  counted ptr _ held := nomatch (mounted.boxes ptr).symm.trans held
  below ptr _ held := nomatch (mounted.boxes ptr).symm.trans held
  heap := mounted.heap
  listed _ member := nomatch member

theorem Mounted.withHost (mounted : Mounted w) (keeps : w.host.Keeps host) : Mounted (w.withHost host) where
  inodes := mounted.inodes
  boxes := mounted.boxes
  heap := mounted.heap
  root :=
    have ⟨id, attributes, opened, held, dir⟩ := mounted.root
    ⟨id, attributes, keeps.descriptors _ id opened, keeps.files id attributes held, dir⟩

/-- Only the root is known. -/
theorem Mounted.getInode (mounted : Mounted w) (known : w.fs.getInode ino = .ok inode) :
    ino = fuseRootId ∧ inode = w.fs.root := by
  simp only [Fs.getInode, mounted.boxes] at known
  split at known
  · rename_i root
    cases known
    exact ⟨root, rfl⟩
  · cases known

/-- What is said of a request that gets to no entry. -/
def Fruitless (w : World) (reply : FuseReply) (after : World) : Prop :=
  handed reply = [] ∧ ∃ host, after = w.withHost host ∧ w.host.Keeps host

theorem resolve_keeps (w : World) (inode : Inode) (name : Name) : w.host.Keeps (w.resolve inode name).2 := by
  have opens := w.host.openat_keeps inode.fd name
  simp only [World.resolve]
  split
  · rename_i failed
    simpa only [failed] using opens
  · rename_i newfd host opened
    rw [opened] at opens
    have stats := opens.trans (host.fstat_keeps newfd)
    split
    · rename_i failed
      simpa only [failed] using stats
    · rename_i found
      rw [found] at stats
      split
      · exact stats
      · split <;> exact stats

theorem lookup_fruitless (unresolved : ¬ Resolves w parent name) (done : w.lookup parent name = .ok (reply, after)) :
    Fruitless w reply after := by
  obtain ⟨inode, known, ⟨errno, host, failed, rfl, rfl⟩ | ⟨newfd, attr, host, ptr, fs, found, -⟩⟩ := lookup_cases done
  · exact ⟨rfl, host, rfl, by simpa only [failed] using resolve_keeps w inode name⟩
  · exact absurd ⟨inode, (newfd, attr), host, known, found⟩ unresolved

theorem Fruitless.withHost (keeps : w.host.Keeps host) (fruitless : Fruitless (w.withHost host) reply after) :
    Fruitless w reply after := by
  obtain ⟨nothing, last, rfl, kept⟩ := fruitless
  exact ⟨nothing, last, rfl, keeps.trans kept⟩

theorem made_fruitless {make : Host → Int → Except Errno Unit × Host} (keeps : ∀ fd, w.host.Keeps (make w.host fd).2)
    (nothing : ¬ Makes w parent name make) (done : w.made parent name make = .ok (reply, after)) :
    Fruitless w reply after := by
  obtain ⟨inode, known, done⟩ := bind_ok.mp done
  have kept := keeps inode.fd
  split at done
  · rename_i errno host failed
    cases done
    exact ⟨rfl, host, rfl, by simpa only [failed] using kept⟩
  · rename_i host made
    rw [made] at kept
    exact (lookup_fruitless (fun found => nothing ⟨inode, _, host, known, made, found⟩) done).withHost kept

theorem create_fruitless (nothing : ¬ Makes w parent name fun host fd => host.openCreate fd name mode)
    (done : w.create parent name mode = .ok (reply, after)) : Fruitless w reply after := by
  obtain ⟨inode, known, done⟩ := bind_ok.mp done
  have kept := w.host.openCreate_keeps inode.fd name mode
  split at done
  · rename_i errno host failed
    cases done
    exact ⟨rfl, host, rfl, by simpa only [failed] using kept⟩
  · rename_i fd host opened
    rw [opened] at kept
    obtain ⟨⟨answer, next⟩, looked, done⟩ := bind_ok.mp done
    have fruitless := (lookup_fruitless (fun found => nothing ⟨inode, _, host, known, opened, found⟩) looked).withHost kept
    split at done
    · rename_i same
      cases same
      cases done
      exact fruitless
    · rename_i same
      cases same
      exact absurd fruitless.1 (List.cons_ne_nil _ _)
    · cases done

/-- The root is a directory, and is not linked. -/
theorem link_fruitless (mounted : Mounted w) (done : w.link ino newparent newname = .ok (reply, after)) :
    Fruitless w reply after := by
  obtain ⟨inode, known, done⟩ := bind_ok.mp done
  obtain ⟨parent, -, done⟩ := bind_ok.mp done
  obtain ⟨rfl, rfl⟩ := mounted.getInode known
  obtain ⟨id, attributes, opened, held, dir⟩ := mounted.root
  have kept : w.host.Keeps (w.linkInode w.fs.root parent.fd newname).2 := by
    simp only [World.linkInode]
    split <;> exact w.host.linkat_keeps _ parent.fd newname
  have file : w.linkInode w.fs.root parent.fd newname = w.host.linkat (.ok id) parent.fd newname := by
    simp only [World.linkInode, Host.opened, Host.selfPath, opened]
    split <;> rfl
  split at done
  · rename_i errno host failed
    rw [failed] at kept
    split at done <;> cases done <;> exact ⟨rfl, host, rfl, kept⟩
  · rename_i host linked
    rw [file] at linked
    obtain ⟨other, same, found, there, ordinary⟩ := Host.linkat_ok linked
    cases found
    cases held.symm.trans there
    exact absurd dir ordinary

/-- A directory whose first entry cannot be taken. -/
theorem readdirLoop_fruitless {ino size : Nat} {failed : Option Errno} (stream : List Dirent)
    (nothing : ¬ FindsIn w ino stream)
    (done : World.readdirLoop ino size true failed stream [] 0 w = .ok (reply, after)) : Fruitless w reply after := by
  induction stream with
  | nil =>
    simp only [World.readdirLoop] at done
    split at done
    · cases done
      exact ⟨rfl, w.host, rfl, .refl _⟩
    · split at done <;> cases done <;> exact ⟨rfl, w.host, rfl, .refl _⟩
  | cons entry rest ih =>
    simp only [World.readdirLoop] at done
    by_cases dot : World.isDotOrDotdot entry.dName
    · rw [if_pos dot] at done
      exact ih (by simpa [FindsIn, dot] using nothing) done
    · rw [if_neg dot, if_pos trivial] at done
      have unresolved : ¬ Resolves w ino entry.dName := by simpa [FindsIn, dot] using nothing
      split at done
      · cases done
      · rename_i looked
        cases done
        exact lookup_fruitless unresolved looked
      · rename_i looked
        exact absurd (lookup_fruitless unresolved looked).1 (List.cons_ne_nil _ _)
      · cases done

/-- The kernel was given nothing, and gives nothing back. -/
theorem forget_fruitless (mounted : Mounted w) (done : w.forget ino 0 = .ok after) : after = w := by
  obtain ⟨inode, known, done⟩ := bind_ok.mp done
  obtain ⟨rfl, rfl⟩ := mounted.getInode known
  rw [if_neg (Nat.not_lt_zero _)] at done
  cases done
  have same : w.fs.setInode fuseRootId { w.fs.root with nlookup := w.fs.root.nlookup - 0 } = w.fs := if_pos rfl
  have unlisted : w.fs.remove w.fs.root.srcId = w.fs := by simp only [Fs.remove, mounted.inodes]
  rw [same, unlisted, ite_self]
  rfl

/-- The listing, the new entry or the found one counts one reference too many. -/
def Miscounts (reply : FuseReply) (after : World) : Prop :=
  Filled after.fs ∧ ∃ list, Surplus after.fs list ∧ (handed reply = list ∨ handed reply = [])

theorem lookup_gives (surplus : Surplus w.fs []) (resolves : Resolves w parent name)
    (done : w.lookup parent name = .ok (reply, after)) :
    ∃ e, reply = .entry e ∧ Surplus after.fs [e.ino] ∧ Filled after.fs := by
  obtain ⟨inode, found, host, known, resolved⟩ := resolves
  obtain ⟨other, same, ⟨errno, host, failed, -⟩ | ⟨newfd, attr, host, ptr, fs, -, -, -, rfl, -⟩⟩ := lookup_cases done
  · cases known.symm.trans same
    cases resolved.symm.trans failed
  · obtain ⟨counted, id, held⟩ := lookup_surplus surplus (by decide) done
    exact ⟨_, rfl, counted, id, _, held⟩

theorem lookup_miscounts (surplus : Surplus w.fs []) (resolves : Resolves w parent name)
    (done : w.lookup parent name = .ok (reply, after)) : Miscounts reply after := by
  obtain ⟨e, rfl, counted, filled⟩ := lookup_gives surplus resolves done
  exact ⟨filled, _, counted, .inl rfl⟩

theorem made_miscounts {make : Host → Int → Except Errno Unit × Host} (surplus : Surplus w.fs [])
    (makes : Makes w parent name make) (done : w.made parent name make = .ok (reply, after)) :
    Miscounts reply after := by
  obtain ⟨inode, value, host, known, made, resolves⟩ := makes
  simp only [World.made, known, ok_bind, made] at done
  have unchanged : Surplus (w.withHost host).fs [] := surplus
  exact lookup_miscounts unchanged resolves done

theorem create_miscounts (surplus : Surplus w.fs [])
    (makes : Makes w parent name fun host fd => host.openCreate fd name mode)
    (done : w.create parent name mode = .ok (reply, after)) : Miscounts reply after := by
  obtain ⟨inode, fd, host, known, opened, resolves⟩ := makes
  simp only [World.create, known, ok_bind, opened] at done
  obtain ⟨⟨answer, next⟩, looked, done⟩ := bind_ok.mp done
  have unchanged : Surplus (w.withHost host).fs [] := surplus
  obtain ⟨e, rfl, counted, filled⟩ := lookup_gives unchanged resolves looked
  cases done
  exact ⟨filled, _, counted, .inl rfl⟩

theorem serve_miscounts (mounted : Mounted w) (finds : Finds w request)
    (done : serve w request = .ok (reply, after)) : Miscounts reply after := by
  cases request with
  | lookup parent name => exact lookup_miscounts mounted.surplus finds done
  | mknod parent name mode =>
    simp only [Finds] at finds
    exact made_miscounts mounted.surplus finds done
  | mkdir parent name mode =>
    simp only [Finds] at finds
    exact made_miscounts mounted.surplus finds done
  | symlink link parent name =>
    simp only [Finds] at finds
    exact made_miscounts mounted.surplus finds done
  | create parent name mode => exact create_miscounts mounted.surplus finds done
  | link ino newparent newname => exact finds.elim
  | readdirplus ino size stream failed =>
    obtain ⟨inode, -, done⟩ := bind_ok.mp done
    obtain ⟨-, ends⟩ := readdirLoop_surplus size.toNat_lt stream [] 0 w mounted.surplus (Nat.le_refl 0) (Nat.zero_le _)
    obtain ⟨surplus, filled⟩ := ends reply after done
    exact ⟨filled (.inr finds), surplus⟩
  | forget ino nlookup => exact finds.elim

/-- The kernel was given nothing yet. -/
structure Idle (s : Session) : Prop where
  mounted : Mounted s.world
  given : ∀ ino, s.given ino = 0
  forgotten : ∀ ino, s.forgotten ino = 0

theorem serve_fruitless (mounted : Mounted w) (nothing : ¬ Finds w request) (none : ∀ ino, request.forgets ino = 0)
    (done : serve w request = .ok (reply, after)) : Fruitless w reply after := by
  cases request with
  | lookup parent name => exact lookup_fruitless nothing done
  | mknod parent name mode =>
    simp only [Finds] at nothing
    exact made_fruitless (fun fd => w.host.makeat_keeps fd name _ _) nothing done
  | mkdir parent name mode =>
    simp only [Finds] at nothing
    exact made_fruitless (fun fd => w.host.makeat_keeps fd name _ _) nothing done
  | symlink link parent name =>
    simp only [Finds] at nothing
    exact made_fruitless (fun fd => w.host.makeat_keeps fd name _ _) nothing done
  | create parent name mode => exact create_fruitless nothing done
  | link ino newparent newname => exact link_fruitless mounted done
  | readdirplus ino size stream failed =>
    obtain ⟨inode, -, done⟩ := bind_ok.mp done
    exact readdirLoop_fruitless stream nothing done
  | forget ino nlookup =>
    obtain ⟨last, forgot, done⟩ := bind_ok.mp done
    cases done
    obtain rfl : nlookup = 0 := by simpa [Request.forgets] using none ino
    exact ⟨rfl, w.host, forget_fruitless mounted forgot, .refl _⟩

theorem Idle.forgets_nothing (idle : Idle s) (legal : Legal s request) (ino : Nat) : request.forgets ino = 0 := by
  have bound := legal ino
  rw [idle.given, idle.forgotten] at bound
  omega

/-- While no request gets to an entry, there is nothing to count. -/
theorem Idle.step (idle : Idle s) (legal : Legal s request) (nothing : ¬ Finds s.world request)
    (done : s.step request = .ok s') : Idle s' := by
  obtain ⟨⟨reply, world⟩, served, done⟩ := bind_ok.mp done
  cases done
  have none := idle.forgets_nothing legal
  obtain ⟨nobody, host, rfl, kept⟩ := serve_fruitless idle.mounted nothing none served
  refine ⟨idle.mounted.withHost kept, fun ino => ?_, fun ino => ?_⟩
  · simp [idle.given, nobody]
  · simp [idle.forgotten, none]

theorem serve_ne_negative (mounted : Mounted w) (none : ∀ ino, request.forgets ino = 0) :
    serve w request ≠ .error .negativeLookupCount := by
  cases request with
  | lookup parent name => exact lookup_ne_negative w parent name
  | mknod parent name mode => exact made_ne_negative w parent name fun host fd => host.mknodat fd name mode
  | mkdir parent name mode => exact made_ne_negative w parent name fun host fd => host.mkdirat fd name mode
  | symlink link parent name => exact made_ne_negative w parent name fun host fd => host.symlinkat link fd name
  | create parent name mode => exact create_ne_negative w parent name mode
  | link ino newparent newname => exact link_ne_negative w ino newparent newname
  | readdirplus ino size stream failed =>
    intro fault
    obtain unknown | ⟨inode, -, fault⟩ := bind_eq_error.mp fault
    · exact getInode_ne_negative _ _ unknown
    · exact (readdirLoop_surplus size.toNat_lt stream [] 0 w mounted.surplus (Nat.le_refl 0) (Nat.zero_le _)).1 fault
  | forget ino nlookup =>
    obtain rfl : nlookup = 0 := by simpa [Request.forgets] using none ino
    intro fault
    obtain forgets | ⟨last, -, fault⟩ := bind_eq_error.mp fault
    · obtain unknown | ⟨inode, -, forgets⟩ := bind_eq_error.mp forgets
      · exact getInode_ne_negative _ _ unknown
      · rw [if_neg (Nat.not_lt_zero _)] at forgets
        cases forgets
    · cases fault

theorem Idle.counted (idle : Idle s) : Counted s where
  exact id ptr inode found := nomatch (idle.mounted.inodes id).symm.trans found
  held id ptr inode found := nomatch (idle.mounted.inodes id).symm.trans found
  present ptr _ := by simp [idle.mounted.inodes, idle.given, idle.forgotten]
  asserted request legal := serve_ne_negative idle.mounted (idle.forgets_nothing legal)

theorem Idle.not_counted (idle : Idle s) (finds : Finds s.world request) (legal : Legal s request)
    (done : s.step request = .ok s') : ¬ Counted s' := by
  obtain ⟨⟨reply, world⟩, served, done⟩ := bind_ok.mp done
  cases done
  intro counted
  obtain ⟨⟨id, ptr, found⟩, list, surplus, given⟩ := serve_miscounts idle.mounted finds served
  obtain ⟨inode, held⟩ := surplus.boxed id ptr found
  have exact := counted.exact id ptr inode found held
  have present := (counted.present ptr (Nat.ne_of_gt (surplus.below ptr inode held).1)).mp ⟨id, found⟩
  simp only [idle.given, idle.forgotten, idle.forgets_nothing legal, surplus.counted ptr inode held] at exact present
  rcases given with same | nothing
  · rw [same] at exact
    omega
  · simp [nothing] at present

/-- In a run in which no request gets to an entry every count is right, and the first request that does
breaks it. -/
theorem lookup_counts_iff (w : World) (mounted : Mounted w) (s : Session)
    (reached : Reaches (fun s request s' => Session.step s request = .ok s')
      (fun s request => Legal s request ∧ ¬ Finds s.world request) (start w) s) :
    Counted s ∧ ∀ request s', Legal s request → s.step request = .ok s' →
      (Counted s' ↔ ¬ Finds s.world request) := by
  have idle : Idle s := by
    refine reached.invariant ⟨mounted, fun _ => rfl, fun _ => rfl⟩ fun s request s' idle step fine => ?_
    exact idle.step fine.1 fine.2 step
  refine ⟨idle.counted, fun request s' legal step => ⟨fun counted finds => ?_, fun nothing => ?_⟩⟩
  · exact idle.not_counted finds legal step counted
  · exact (idle.step legal nothing step).counted

theorem mounted_oneFile : Mounted oneFile where
  inodes _ := rfl
  boxes _ := rfl
  heap := by decide
  root := ⟨⟨2, 1⟩, ⟨sIfdir ||| 0o755, 0, 0, 0, ⟨0, 0⟩, ⟨0, 0⟩⟩, by decide, by decide, by decide⟩

/-- What a session says of the file's inode: whether the table has it, its references by the file system's
count, those given and those forgotten, and whether its descriptor is open. -/
def account (s : Session) : Option (Nat × Nat × Nat × Bool) := do
  let ptr ← s.world.fs.inodes ⟨7, 1⟩
  let inode ← s.world.fs.boxes ptr
  return (inode.nlookup, s.given ptr, s.forgotten ptr, (s.world.host.descriptor inode.fd).isSome)

/-- One lookup is counted twice and leaves a closed descriptor; when it is forgotten, the inode stays. -/
theorem first_lookup_counts_twice :
    (∃ s, (start oneFile).step (.lookup fuseRootId [0x61]) = .ok s ∧ ¬ Counted s ∧
      account s = some (2, 1, 0, false)) ∧
    ((start oneFile).step (.lookup fuseRootId [0x61]) >>= fun s => s.step (.forget 4096 1)).map account =
      .ok (some (1, 1, 1, false)) := by
  refine ⟨⟨_, rfl, fun counted => ?_, by decide⟩, by decide⟩
  have exact := counted.exact ⟨7, 1⟩ 4096 _ rfl rfl
  exact absurd exact (by decide)

/-- A name that is not there. -/
theorem missing_name_counts : ∃ s, (start oneFile).step (.lookup fuseRootId [0x62]) = .ok s ∧ Counted s := by
  have run := lookup_counts_iff oneFile mounted_oneFile (start oneFile) .refl
  refine ⟨_, rfl, (run.2 (.lookup fuseRootId [0x62]) _ (fun _ => Nat.le_refl 0) rfl).mpr ?_⟩
  rintro ⟨inode, found, host, known, resolved⟩
  cases known
  cases resolved

end Fsyncer.FuseLookups
