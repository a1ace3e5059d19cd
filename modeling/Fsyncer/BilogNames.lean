import Fsyncer.BilogHistory

/-! Entries that give a name back. The entry of a rename does not look at the tree
it meets, so it never leads back. The entry of an unlinked hard link keeps another
name of the file as the directory walk spells it, from the root of the file system
down, and reads it from the root of the backing store down. -/
namespace Fsyncer.Bilog
open FileTree Vfs Machine

variable {host : Host} {t after : Tree}

/-! ### Renaming -/

/-- A rename leaves two names of one inode alone; otherwise the source is gone. -/
theorem rename_ok (renamed : t.rename source dest flags = .ok after) :
    t.rename source dest 0 = .ok after ∧
      (t.names.find source = t.names.find dest ∧ after = t ∨
        t.names.find source ≠ t.names.find dest ∧ after.names.find source = none) := by
  have plain : ¬ ((0 : UInt32) ≠ 0 ∧ (0 : UInt32) ≠ Tree.noReplace) := fun flagged => flagged.1 rfl
  have replacing : ¬ ((0 : UInt32) = Tree.noReplace ∧ t.names.find dest ≠ none) := fun kept => by cases kept.1
  unfold Tree.rename at renamed ⊢
  obtain ⟨_, renamed⟩ := of_guard renamed
  obtain ⟨present, renamed⟩ := of_guard renamed
  rw [if_neg plain, if_neg present]
  by_cases parent : t.isDir dest.dropLast = true
  · rw [dif_pos parent] at renamed ⊢
    obtain ⟨proper, renamed⟩ := of_guard renamed
    obtain ⟨_, renamed⟩ := of_guard renamed
    rw [if_neg proper, if_neg replacing]
    by_cases same : t.names.find source = t.names.find dest
    · rw [if_pos same] at renamed ⊢
      cases renamed
      exact ⟨rfl, .inl ⟨same, rfl⟩⟩
    · rw [if_neg same] at renamed ⊢
      refine ⟨renamed, .inr ⟨same, ?_⟩⟩
      obtain ⟨_, renamed⟩ := of_guard renamed
      obtain ⟨_, renamed⟩ := of_guard renamed
      obtain ⟨_, renamed⟩ := of_guard renamed
      obtain ⟨_, renamed⟩ := of_guard renamed
      obtain ⟨_, renamed⟩ := of_guard renamed
      by_cases apart : Tree.Apart source dest
      · rw [dif_pos apart] at renamed
        cases renamed
        show (Tree.movedNames t.names source dest).find source = none
        rw [Tree.find_movedNames_of_apart apart, if_neg apart.2, if_pos List.prefix_rfl]
      · rw [dif_neg apart] at renamed
        cases renamed
  · rw [dif_neg parent] at renamed
    cases renamed

theorem rename_missing (missing : t.names.find source = none) : t.rename source dest 0 = .error (t.obstacle source) := by
  rw [Tree.rename, if_neg (fun flagged => flagged.1 rfl), if_pos missing]

theorem run_rename (source dest : Path) (flags : UInt32) : run host (.rename source dest flags) t =
    (t.rename (translatePath source host.fspath) (translatePath dest host.fspath) flags).toOption := by
  rw [run, dispatch, xmpRename]
  cases t.rename (translatePath source host.fspath) (translatePath dest host.fspath) flags <;> rfl

/-- The entry of a rename, applied on what the rename left, is the rename once more.
That leads back only if there was nothing to rename. -/
theorem rename_entry_reversible_iff (ran : run host (.rename source dest flags) t = some after) :
    (∃ entry, BilogEntry.tryFrom (.rename source dest flags) host t = .ok entry ∧ flip host entry t = some after ∧
      flip host entry after = some t) ↔
    t.names.find (translatePath source host.fspath) = t.names.find (translatePath dest host.fspath) := by
  rw [run_rename] at ran
  obtain ⟨again, outcome⟩ := rename_ok (toOption_some ran)
  have flips : ∀ u : Tree, flip host (.rename ⟨source, dest, true⟩) u =
      (u.rename (translatePath source host.fspath) (translatePath dest host.fspath) 0).toOption := by
    intro u
    have applied : (BilogEntry.rename ⟨source, dest, true⟩).apply host u = .ok (.rename source dest 0) := rfl
    rw [flip_of_apply applied, run_rename]
  obtain ⟨same, rfl⟩ | ⟨differ, gone⟩ := outcome
  · refine ⟨fun _ => same, fun _ => ⟨_, rfl, ?_, ?_⟩⟩
    · rw [flips, again]
      rfl
    · rw [flips, again]
      rfl
  · refine ⟨?_, fun same => absurd same differ⟩
    rintro ⟨entry, made, -, back⟩
    cases made
    rw [flips, rename_missing gone] at back
    cases back

/-- A file renamed to a free name. -/
theorem renamed_file_not_restored :
    ∃ after entry, run plainHost (.rename [[102]] [[103]] 0) (soloFile [1]) = some after ∧
      BilogEntry.tryFrom (.rename [[102]] [[103]] 0) plainHost (soloFile [1]) = .ok entry ∧
      flip plainHost entry after = none := ⟨_, _, rfl, rfl, rfl⟩

theorem free_name_reversible_iff :
    ∃ after, run plainHost (.rename [[102]] [[103]] 0) (soloFile [1]) = some after ∧
      ((∃ entry, BilogEntry.tryFrom (.rename [[102]] [[103]] 0) plainHost (soloFile [1]) = .ok entry ∧
        flip plainHost entry (soloFile [1]) = some after ∧ flip plainHost entry after = some (soloFile [1])) ↔
      (soloFile [1]).names.find [[102]] = (soloFile [1]).names.find [[103]]) :=
  ⟨_, rfl, rename_entry_reversible_iff rfl⟩

/-! ### Unlinking one of several names -/

theorem run_link (source dest : Path) (uid gid : UInt32) : run host (.link source dest (.unix uid gid)) t =
    (t.link (translatePath source host.fspath) (translatePath dest host.fspath) >>= fun joined =>
      joined.chown (translatePath dest host.fspath) uid gid).toOption := by
  rw [run, dispatch, xmpLink]
  cases t.link (translatePath source host.fspath) (translatePath dest host.fspath) with
  | error errno => exact if_neg (code_ne_zero errno)
  | ok joined =>
    rw [ok_bind]
    cases changed : joined.chown (translatePath dest host.fspath) uid gid with
    | error errno =>
      simp only [sequel, xmpChown, status, changed]
      exact if_neg (code_ne_zero errno)
    | ok after =>
      simp only [sequel, xmpChown, status, changed]
      rfl

theorem link_ok (linked : t.link old new = .ok after) :
    ∃ i held kind absent parent, after = t.join old new i held kind absent parent := by
  unfold Tree.link at linked
  split at linked
  · cases linked
  · next i held =>
    split at linked
    · next absent =>
      split at linked
      · next parent =>
        split at linked
        · next kind =>
          cases linked
          exact ⟨i, held, kind, absent, parent, rfl⟩
        · cases linked
      · cases linked
    · cases linked

/-- A successful link makes one more name of what the source is a name of. -/
theorem find_of_linked (linked : run host (.link source dest (.unix uid gid)) t = some after) :
    after.names.find (translatePath dest host.fspath) = t.names.find (translatePath source host.fspath) := by
  rw [run_link] at linked
  obtain ⟨joined, linked, owned⟩ := bind_ok.mp (toOption_some linked)
  obtain ⟨i, held, kind, absent, parent, rfl⟩ := link_ok linked
  obtain ⟨_, owned⟩ := of_guard owned
  obtain ⟨j, _, rfl⟩ := Tree.change_ok owned
  rw [held]
  exact SortedMap.find_insert_self ..

/-- A regular file can be given a free name in a directory. -/
theorem link_of_file (found : t.names.find (translatePath source host.fspath) = some i)
    (held : t.inodes[i]? = some node) (file : node.kind = .reg data)
    (absent : t.names.find (translatePath dest host.fspath) = none)
    (parent : t.isDir (translatePath dest host.fspath).dropLast = true) :
    ∃ after, run host (.link source dest (.unix uid gid)) t = some after := by
  have inode : t.inode? (translatePath source host.fspath) = some node := by
    rw [Tree.inode?, inodeIn, found, Option.bind_some, held]
  have kind : t.isDir (translatePath source host.fspath) = false := by
    simp [Tree.isDir, isDirIn, show inodeIn t.names t.inodes _ = some node from inode, Inode.isDir, file]
  have linked : t.link (translatePath source host.fspath) (translatePath dest host.fspath) =
      .ok (t.join _ _ i found kind absent parent) := by
    unfold Tree.link
    split
    · next missing => cases found.symm.trans missing
    · next j here =>
      cases found.symm.trans here
      rw [dif_pos absent, dif_pos parent, dif_pos kind]
  have there : (t.join _ _ i found kind absent parent).names.find (translatePath dest host.fspath) = some i :=
    SortedMap.find_insert_self ..
  have owned : (t.join _ _ i found kind absent parent).chown (translatePath dest host.fspath) uid gid =
      .ok ((t.join _ _ i found kind absent parent).amend i (Inode.setOwner uid gid) (Inode.isDir_setOwner uid gid)) := by
    have firm : ((t.join _ _ i found kind absent parent).inode? (translatePath dest host.fspath)).any Inode.isLnk =
        false := by
      rw [Tree.inode?, inodeIn, there, Option.bind_some]
      show t.inodes[i]?.any Inode.isLnk = false
      simp [held, Inode.isLnk, file]
    rw [Tree.chown, if_neg (by rw [firm]; exact Bool.false_ne_true)]
    exact Tree.change_of there
  exact ⟨_, by rw [run_link, linked, ok_bind, owned]; rfl⟩

/-- The walk lists every name in the backing store once. -/
structure Walks (host : Host) (t : Tree) : Prop where
  once : (host.walkDir t).Nodup
  names : ∀ path, path ∈ host.walkDir t ↔ host.fspath <+: path ∧ t.names.find path ≠ none

/-- The first name of the inode `i` that the walk comes to. -/
def FirstName (host : Host) (t : Tree) (i : Nat) (path : Path) : Prop :=
  ∃ front back, host.walkDir t = front ++ path :: back ∧ t.names.find path = some i ∧
    ∀ other ∈ front, t.names.find other ≠ some i

theorem findHardlink_eq_some : findHardlink i host t = some path ↔ FirstName host t i path := by
  rw [findHardlink, List.find?_eq_some_iff_append, FirstName]
  constructor
  · rintro ⟨here, front, back, split, before⟩
    exact ⟨front, back, split, by simpa using here, by simpa using before⟩
  · rintro ⟨front, back, split, here, before⟩
    exact ⟨by simpa using here, front, back, split, by simpa using before⟩

section Shared

variable {path : Path} {i : Nat} {node : Inode}

/-- The entry of the unlinking of one of several names. -/
theorem tryFrom_shared (found : t.names.find (translatePath path host.fspath) = some i)
    (held : t.inodes[i]? = some node) (file : node.kind = .reg data)
    (other : ∃ name, name ≠ path ∧ t.names.find (translatePath name host.fspath) = some i)
    (first : FirstName host t i source) :
    BilogEntry.tryFrom (.unlink path) host t = .ok (.link ⟨source, path, true, node.uid ^^^ 0, node.gid ^^^ 0⟩) := by
  have inode : t.inode? (translatePath path host.fspath) = some node := by
    rw [Tree.inode?, inodeIn, found, Option.bind_some, held]
  have shared : 1 < t.nlink (translatePath path host.fspath) := by
    by_contra single
    obtain ⟨name, differ, there⟩ := other
    have same := sole_of_nlink (by omega) found (there.trans found.symm)
    exact differ (List.append_cancel_left same)
  have stat : translateAndStat path host t = .ok node := by rw [translateAndStat, Tree.lstat, inode]
  have record : BilogLink.old path host t = .ok ⟨source, path, true, node.uid, node.gid⟩ := by
    rw [BilogLink.old, probe_met inode, ok_bind]
    simp only [found, Option.getD_some, findHardlink_eq_some.mpr first]
    rfl
  rw [BilogEntry.tryFrom, BilogEntry.tryFromUnlink, stat]
  simp only [lift, ok_bind, file, if_pos shared, record, BilogLink.new]
  rfl

/-- Where the name is missing, the entry links it to the path it keeps. -/
theorem flip_link_missing {x : BilogLink} (absent : t.names.find (translatePath x.dest host.fspath) = none)
    (parent : t.isDir (translatePath x.dest host.fspath).dropLast = true) :
    flip host (.link x) t = run host (.link x.source x.dest (.unix x.uid x.gid)) t := by
  refine flip_of_apply ?_
  rw [BilogEntry.apply, BilogLink.old, probe_missing absent parent, ok_bind]
  rfl

/-- The entry of the unlinking of one of several names, applied on what the
unlinking left, gives the name back exactly if the first name that the walk comes
to, taken as a path below the backing store, is another name of the file. -/
theorem unlink_entry_restores_iff (walks : Walks host t) (ran : run host (.unlink path) t = some after)
    (found : t.names.find (translatePath path host.fspath) = some i) (held : t.inodes[i]? = some node)
    (file : node.kind = .reg data) (other : ∃ name, name ≠ path ∧ t.names.find (translatePath name host.fspath) = some i) :
    (∃ entry restored, BilogEntry.tryFrom (.unlink path) host t = .ok entry ∧ flip host entry after = some restored ∧
      restored.names.find (translatePath path host.fspath) = some i) ↔
    ∃ first, FirstName host t i first ∧ translatePath first host.fspath ≠ translatePath path host.fspath ∧
      t.names.find (translatePath first host.fspath) = some i := by
  obtain ⟨source, first⟩ : ∃ source, FirstName host t i source := by
    have listed : translatePath path host.fspath ∈ host.walkDir t :=
      (walks.names _).mpr ⟨List.prefix_append _ _, by simp [found]⟩
    have some_name : (findHardlink i host t).isSome := by
      rw [findHardlink, List.find?_isSome]
      exact ⟨_, listed, by simp [found]⟩
    obtain ⟨source, met⟩ := Option.isSome_iff_exists.mp some_name
    exact ⟨source, findHardlink_eq_some.mp met⟩
  have made := tryFrom_shared found held file other first
  rw [run_unlink] at ran
  obtain ⟨_, _, proper, alone, rfl⟩ := Tree.unlink_ok (toOption_some ran)
  have names : ∀ name, (t.detach _ proper alone).names.find name =
      if translatePath path host.fspath = name then none else t.names.find name := Tree.find_detach proper alone
  have absent := (names (translatePath path host.fspath)).trans (if_pos rfl)
  have parent : (t.detach _ proper alone).isDir (translatePath path host.fspath).dropLast = true := by
    have inode : t.inode? (translatePath path host.fspath) = some node := by
      rw [Tree.inode?, inodeIn, found, Option.bind_some, held]
    obtain ⟨dir, here, kind⟩ := Tree.isDir_iff.mp (Tree.isDir_dropLast inode proper)
    have differ : translatePath path host.fspath ≠ (translatePath path host.fspath).dropLast := by
      intro same
      have shorter := congrArg List.length same
      have nonempty := List.length_pos_iff.mpr proper
      rw [List.length_dropLast] at shorter
      omega
    exact Tree.isDir_iff.mpr ⟨dir, by rw [Tree.inode?_detach, if_neg differ, here], kind⟩
  have flips := flip_link_missing (x := ⟨source, path, true, node.uid ^^^ 0, node.gid ^^^ 0⟩) absent parent
  constructor
  · rintro ⟨entry, restored, made', turned, back⟩
    cases made.symm.trans made'
    rw [flips] at turned
    have kept := find_of_linked turned
    rw [back, names] at kept
    split at kept
    · cases kept
    · next differ => exact ⟨source, first, Ne.symm differ, kept.symm⟩
  · rintro ⟨first', named, differ, same⟩
    cases (findHardlink_eq_some.mpr first).symm.trans (findHardlink_eq_some.mpr named)
    have there : (t.detach _ proper alone).names.find (translatePath source host.fspath) = some i := by
      rw [names, if_neg (Ne.symm differ), same]
    obtain ⟨restored, linked⟩ := link_of_file there held file absent parent
    exact ⟨_, restored, made, flips.trans linked, (find_of_linked linked).trans there⟩

/-- A host whose backing store is the directory `s`, walked in the order of the names. -/
def nestedHost : Host where
  process := plainHost.process
  fspath := [[115]]
  walkDir t := (t.names.entries.map Prod.fst).filter fun path => [[115]] <+: path

/-- Its store with the file `a`, which has also the name `b`. -/
def nestedStore : Tree :=
  let dir := emptyStore.attach [[115]] (plainHost.process.newInode .dir 0o755) rfl rfl
  (dir.attach [[115], [97]] (plainHost.process.newInode (.reg [1]) 0o644) rfl rfl).join [[115], [97]] [[115], [98]] 2
    rfl rfl rfl rfl

/-- A host whose backing store is the root, walked the same way. -/
def rootHost : Host := { plainHost with walkDir := fun t => t.names.entries.map Prod.fst }

/-- The name kept is read below the backing store, where there is none. With the
root as the backing store the walk may come to the unlinked name itself. -/
theorem unlinked_name_not_restored :
    (∃ after entry, run nestedHost (.unlink [[98]]) nestedStore = some after ∧
      BilogEntry.tryFrom (.unlink [[98]]) nestedHost nestedStore = .ok entry ∧ flip nestedHost entry after = none) ∧
    ∃ after entry, run rootHost (.unlink [[115], [97]]) nestedStore = some after ∧
      BilogEntry.tryFrom (.unlink [[115], [97]]) rootHost nestedStore = .ok entry ∧ flip rootHost entry after = none :=
  ⟨⟨_, _, rfl, rfl, rfl⟩, _, _, rfl, rfl, rfl⟩

theorem walks_rootHost (t : Tree) : Walks rootHost t where
  once := List.Pairwise.map _ (fun _ _ before => ne_of_lt before) t.names.sorted
  names path := by
    show path ∈ t.names.entries.map Prod.fst ↔ [] <+: path ∧ t.names.find path ≠ none
    rw [List.mem_map, Option.ne_none_iff_exists']
    constructor
    · rintro ⟨⟨name, i⟩, listed, rfl⟩
      exact ⟨List.nil_prefix, i, SortedMap.mem_entries_iff.mp listed⟩
    · rintro ⟨_, i, found⟩
      exact ⟨(path, i), SortedMap.mem_entries_iff.mpr found, rfl⟩

theorem second_name_restored :
    ∃ after entry restored, run rootHost (.unlink [[115], [98]]) nestedStore = some after ∧
      BilogEntry.tryFrom (.unlink [[115], [98]]) rootHost nestedStore = .ok entry ∧
      flip rootHost entry after = some restored ∧ restored.names.find [[115], [98]] = some 2 := by
  have ran : run rootHost (.unlink [[115], [98]]) nestedStore = some _ := rfl
  have restores := unlink_entry_restores_iff (i := 2) (walks_rootHost _) ran rfl rfl rfl ⟨[[115], [97]], by decide, rfl⟩
  obtain ⟨entry, restored, made, turned, back⟩ := restores.mpr
    ⟨[[115], [97]], ⟨[[], [[115]]], [[[115], [98]]], rfl, rfl, by decide⟩, by decide, rfl⟩
  exact ⟨_, entry, restored, ran, made, turned, back⟩

end Shared

end Fsyncer.Bilog
