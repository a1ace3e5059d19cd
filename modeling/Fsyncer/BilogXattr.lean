import Fsyncer.BilogHistory
import Fsyncer.BilogWrite

/-! When the entry of an extended attribute can be applied both ways. An attribute
that is set anew or removed is kept as it is. Where one value replaces another the
entry holds their difference in the length of the longer, and not which one that
was. -/
namespace Fsyncer.Bilog
open FileTree Vfs Wire Machine

/-! ### One attribute of one inode -/

/-- The attribute set to a value, or removed. -/
def putXattr (name : Name) (value : Option (List UInt8)) (xattrs : SortedMap Name (List UInt8)) :
    SortedMap Name (List UInt8) :=
  match value with
  | some value => xattrs.insert name value
  | none => xattrs.erase name

theorem find_putXattr (name : Name) (value : Option (List UInt8)) (xattrs : SortedMap Name (List UInt8)) :
    (putXattr name value xattrs).find name = value := by
  cases value with
  | some value => exact xattrs.find_insert_self name value
  | none => exact xattrs.find_erase_self name

/-- Either the attribute was there before or it is there after. -/
theorem putXattr_putXattr (old new : Option (List UInt8)) (some_value : old ≠ none ∨ new ≠ none)
    (held : xattrs.find name = old) : putXattr name old (putXattr name new xattrs) = xattrs := by
  cases old with
  | some old =>
    cases new with
    | some new =>
      show (xattrs.insert name new).insert name old = xattrs
      rw [SortedMap.insert_insert, SortedMap.insert_find held]
    | none => exact SortedMap.insert_erase held
  | none =>
    cases new with
    | some new => exact SortedMap.erase_insert held
    | none => exact absurd some_value (by simp)

/-- The tree with the attribute put to the inode `i`. -/
def withXattr (t : Tree) (i : Nat) (name : Name) (value : Option (List UInt8)) : Tree :=
  t.amend i (Inode.setXattrs (putXattr name value)) (Inode.isDir_setXattrs _)

/-- `path` leads to the inode `i`, whose attribute `name` has the value. -/
structure OnXattr (host : Host) (t : Tree) (path : Path) (i : Nat) (name : Name) (value : Option (List UInt8)) :
    Prop where
  found : t.names.find (translatePath path host.fspath) = some i
  held : ∃ node, t.inodes[i]? = some node ∧ node.xattrs.find name = value

variable {host : Host} {t : Tree} {path : Path} {i : Nat} {name : Name} {old new : Option (List UInt8)}

theorem OnXattr.put (on : OnXattr host t path i name old) (new : Option (List UInt8)) :
    OnXattr host (withXattr t i name new) path i name new := by
  obtain ⟨node, held, _⟩ := on.held
  refine ⟨on.found, node.setXattrs (putXattr name new), ?_, find_putXattr name new node.xattrs⟩
  show (t.inodes.modify i _)[i]? = _
  rw [List.getElem?_modify_eq, held]
  rfl

theorem OnXattr.put_back (on : OnXattr host t path i name old) (some_value : old ≠ none ∨ new ≠ none) :
    withXattr (withXattr t i name new) i name old = t := by
  obtain ⟨node, held, value⟩ := on.held
  have same : ((node.setXattrs (putXattr name new)).setXattrs (putXattr name old)) = node := by
    cases node
    simp only [Inode.setXattrs, putXattr_putXattr old new some_value value]
  exact Tree.amend_amend_cancel held same

theorem OnXattr.lstat (on : OnXattr host t path i name old) :
    ∃ node, t.lstat (translatePath path host.fspath) = .ok node ∧ node.xattrs.find name = old := by
  obtain ⟨node, held, value⟩ := on.held
  refine ⟨node, ?_, value⟩
  rw [Tree.lstat, Tree.inode?, inodeIn, on.found, Option.bind_some, held]

/-- The call puts the attribute to the value. -/
inductive PutsXattr (path : Path) (name : Name) : VFSCall → Option (List UInt8) → Prop where
  | set : PutsXattr path name (.setxattr path name value flags) (some value)
  | removed : PutsXattr path name (.removexattr path name) none

theorem OnXattr.change (on : OnXattr host t path i name old) (new : Option (List UInt8)) :
    t.change (translatePath path host.fspath) (Inode.setXattrs (putXattr name new)) (Inode.isDir_setXattrs _) =
      .ok (withXattr t i name new) := by
  rw [Tree.change, on.found]
  rfl

theorem OnXattr.run_set (on : OnXattr host t path i name old) (value : List UInt8) :
    run host (.setxattr path name value 0) t = some (withXattr t i name (some value)) := by
  obtain ⟨node, stat, _⟩ := on.lstat
  have set : t.lsetxattr (translatePath path host.fspath) name value (0 : Int32).toInt =
      .ok (withXattr t i name (some value)) := by
    rw [Tree.lsetxattr, stat, ok_bind]
    exact on.change (some value)
  exact (run_of_status rfl).trans (by rw [set]; rfl)

theorem OnXattr.run_remove (on : OnXattr host t path i name old) (present : old ≠ none) :
    run host (.removexattr path name) t = some (withXattr t i name none) := by
  obtain ⟨node, stat, value⟩ := on.lstat
  obtain ⟨bytes, rfl⟩ := Option.ne_none_iff_exists'.mp present
  have removed : t.lremovexattr (translatePath path host.fspath) name = .ok (withXattr t i name none) := by
    rw [Tree.lremovexattr, stat, ok_bind, value]
    exact on.change none
  exact (run_of_status rfl).trans (by rw [removed]; rfl)

/-- What a successful call leaves. -/
theorem OnXattr.ran (on : OnXattr host t path i name old) (puts : PutsXattr path name call new)
    (ran : run host call t = some after) : after = withXattr t i name new ∧ (old ≠ none ∨ new ≠ none) := by
  obtain ⟨node, stat, value⟩ := on.lstat
  cases puts with
  | @set bytes flags =>
    have set : (t.lsetxattr (translatePath path host.fspath) name bytes flags.toInt).toOption = some after :=
      (run_of_status rfl).symm.trans ran
    have set := toOption_some set
    simp only [Tree.lsetxattr, stat, ok_bind] at set
    split_ifs at set
    refine ⟨?_, .inr (by simp)⟩
    have same := set.symm.trans (on.change (some bytes))
    cases same
    rfl
  | removed =>
    have removed : (t.lremovexattr (translatePath path host.fspath) name).toOption = some after :=
      (run_of_status rfl).symm.trans ran
    have removed := toOption_some removed
    simp only [Tree.lremovexattr, stat, ok_bind, value] at removed
    cases old with
    | none => cases removed
    | some bytes =>
      have same := removed.symm.trans (on.change none)
      cases same
      exact ⟨rfl, .inl (by simp)⟩

/-! ### The entry -/

theorem OnXattr.record (on : OnXattr host t path i name old) (fits : ∀ value, old = some value → value.length ≤ 4096) :
    BilogXattr.old path name host t = .ok (.state path name old old.isNone) := by
  obtain ⟨node, stat, value⟩ := on.lstat
  rw [BilogXattr.old, Tree.lgetxattr, stat, ok_bind, value]
  cases old with
  | none => rfl
  | some bytes => exact if_pos (fits bytes rfl)

theorem OnXattr.tryFrom (on : OnXattr host t path i name old)
    (fits : ∀ value, old = some value → value.length ≤ 4096) (puts : PutsXattr path name call new)
    (made : BilogXattr.xor (.state path name old old.isNone) (.state path name new new.isNone) = .ok x) :
    BilogEntry.tryFrom call host t = .ok (.xattr x) := by
  cases puts <;> rw [BilogEntry.tryFrom, BilogXattr.new, ok_bind, on.record fits, ok_bind]
  · exact (congrArg (· >>= fun x => Except.ok (BilogEntry.xattr x)) made).trans rfl
  · exact (congrArg (· >>= fun x => Except.ok (BilogEntry.xattr x)) made).trans rfl

theorem OnXattr.flips (on : OnXattr host t path i name old) (fits : ∀ value, old = some value → value.length ≤ 4096)
    (x : BilogXattr) (target : x.path = path) (names : x.name = name)
    (applied : x.apply (.state path name old old.isNone) = .ok call) :
    flip host (.xattr x) t = run host call t := by
  refine flip_of_apply ?_
  rw [BilogEntry.apply, target, names, on.record fits, ok_bind, applied]

/-- An attribute that one of the states lacks is set where it is missing and
removed where it is met. -/
theorem OnXattr.flip_lone (on : OnXattr host t path i name old)
    (fits : ∀ value, old = some value → value.length ≤ 4096) (value : List UInt8) (checksum : UInt32) :
    flip host (.xattr ⟨path, name, some value, true, checksum⟩) t =
      some (withXattr t i name (if old = none then some value else none)) := by
  cases old with
  | none => exact (on.flips fits _ rfl rfl rfl).trans (on.run_set value)
  | some bytes => exact (on.flips fits _ rfl rfl rfl).trans (on.run_remove (by simp))

/-- The value of the entry where one value replaces another. -/
def difference (o n : List UInt8) : List UInt8 := if n.length < o.length then changed o n else changed n o

theorem xorValue_eq (o n : List UInt8) : BilogXattr.xorValue (some o) (some n) = .ok (difference o n, false) := by
  rw [BilogXattr.xorValue, difference]
  split
  · rw [xorBuf_eq (by omega)]
    rfl
  · rw [xorBuf_eq (by omega)]
    rfl

theorem length_difference (o n : List UInt8) : (difference o n).length = max o.length n.length := by
  rw [difference]
  split
  · rw [length_changed (by omega)]
    omega
  · rw [length_changed (by omega)]
    omega

/-- Applied on a value that is long enough, the entry gives bytes of its own length. -/
theorem OnXattr.flip_difference (on : OnXattr host t path i name (some current)) (fits : current.length ≤ 4096)
    (value : List UInt8) (checksum : UInt32) :
    flip host (.xattr ⟨path, name, some value, false, checksum⟩) t =
      if value.length ≤ current.length ∧
          BilogXattr.crc32 (some (xorBytes value current)) ^^^ BilogXattr.crc32 (some current) = checksum
      then some (withXattr t i name (some (xorBytes value current))) else none := by
  have applied : (BilogEntry.xattr ⟨path, name, some value, false, checksum⟩).apply host t =
      BilogXattr.apply ⟨path, name, some value, false, checksum⟩ (.state path name (some current) false) := by
    rw [BilogEntry.apply, on.record (by rintro _ ⟨⟩; exact fits), ok_bind]
    rfl
  rw [flip, applied]
  by_cases long : value.length ≤ current.length
  · by_cases passes : BilogXattr.crc32 (some (xorBytes value current)) ^^^ BilogXattr.crc32 (some current) = checksum
    · rw [if_pos ⟨long, passes⟩]
      simp only [BilogXattr.apply, BilogXattr.state, BilogXattr.flip, if_pos long, ok_bind, passes, ne_eq,
        not_true_eq_false, if_false, Bool.false_eq_true]
      exact on.run_set _
    · rw [if_neg fun both => passes both.2]
      simp [BilogXattr.apply, BilogXattr.state, BilogXattr.flip, long, passes]
  · rw [if_neg fun both => long both.1]
    simp [BilogXattr.apply, BilogXattr.state, BilogXattr.flip, long]

theorem OnXattr.unique (on : OnXattr host t path i name old) (on' : OnXattr host t path i name new) : old = new := by
  obtain ⟨node, held, rfl⟩ := on.held
  obtain ⟨node', held', rfl⟩ := on'.held
  rw [Option.some.inj (held.symm.trans held')]

theorem xorBytes_eq_changed (length : o.length = n.length) : xorBytes n o = changed n o := by
  rw [changed, List.drop_eq_nil_of_le (by omega), List.append_nil]

/-- Two values of one length, or one value and none. -/
def Exchangeable (old new : Option (List UInt8)) : Prop :=
  ∀ o n, old = some o → new = some n → o.length = n.length

/-- The entry of an attribute leads from the old state to the new one and back
exactly if it does not replace a value by one of another length. -/
theorem xattr_entry_reversible_iff (on : OnXattr host t path i name old) (puts : PutsXattr path name call new)
    (ran : run host call t = some after) (fits : ∀ value, old = some value → value.length ≤ 4096)
    (fits' : ∀ value, new = some value → value.length ≤ 4096) :
    (∃ entry, BilogEntry.tryFrom call host t = .ok entry ∧ flip host entry t = some after ∧
      flip host entry after = some t) ↔ Exchangeable old new := by
  obtain ⟨rfl, some_value⟩ := on.ran puts ran
  have on' := on.put new
  have back := on.put_back some_value
  cases old with
  | none =>
    obtain ⟨n, rfl⟩ := Option.ne_none_iff_exists'.mp (some_value.resolve_left (by simp))
    refine ⟨fun _ => (by rintro _ _ ⟨⟩), fun _ => ⟨_, on.tryFrom fits puts rfl, on.flip_lone fits n _, ?_⟩⟩
    exact (on'.flip_lone fits' n _).trans (by rw [if_neg (by simp), back])
  | some o =>
    cases new with
    | none =>
      refine ⟨fun _ => (by rintro _ _ _ ⟨⟩), fun _ => ⟨_, on.tryFrom fits puts rfl, on.flip_lone fits o _, ?_⟩⟩
      exact (on'.flip_lone fits' o _).trans (by rw [if_pos rfl, back])
    | some n =>
      have made : BilogXattr.xor (.state path name (some o) false) (.state path name (some n) false) =
          .ok ⟨path, name, some (difference o n), false, BilogXattr.crc32 (some n) ^^^ BilogXattr.crc32 (some o)⟩ := by
        rw [BilogXattr.xor]
        simp only [BilogXattr.state, xorValue_eq, ok_bind]
        rfl
      have forth := on.flip_difference (fits o rfl) (difference o n)
        (BilogXattr.crc32 (some n) ^^^ BilogXattr.crc32 (some o))
      have undone := on'.flip_difference (fits' n rfl) (difference o n)
        (BilogXattr.crc32 (some n) ^^^ BilogXattr.crc32 (some o))
      have length := length_difference o n
      constructor
      · rintro ⟨entry, made', turned, -⟩ _ _ ⟨⟩ ⟨⟩
        rw [on.tryFrom fits puts made] at made'
        cases made'
        rw [forth] at turned
        split at turned
        · next long =>
          -- The bytes set have the length of the old value.
          have same := (on.put (some (xorBytes (difference o n) o))).unique (Option.some.inj turned ▸ on')
          have size := congrArg List.length (Option.some.inj same)
          rw [length_xorBytes] at size
          omega
        · cases turned
      · intro exchangeable
        have equal := exchangeable o n rfl rfl
        have value : difference o n = changed n o := if_neg (by omega)
        have onto : xorBytes (difference o n) o = n := by
          rw [xorBytes_eq_changed (by omega), value, changed_changed (by omega)]
        have from_ : xorBytes (difference o n) n = o := by
          rw [xorBytes_eq_changed (by omega), value, changed_back (by omega), padded, equal, Nat.sub_self,
            List.replicate_zero, List.append_nil]
        refine ⟨_, on.tryFrom fits puts made, ?_, ?_⟩
        · rw [forth, onto, if_pos ⟨by omega, rfl⟩]
        · rw [undone, from_, if_pos ⟨by omega, UInt32.xor_comm _ _⟩, back]

/-- The store with the one file `f`, which has the attribute `u`. -/
def taggedFile (value : List UInt8) : Tree := withXattr (soloFile []) 1 [117] (some value)

theorem onXattr_taggedFile (value : List UInt8) : OnXattr plainHost (taggedFile value) [[102]] 1 [117] (some value) := by
  have untagged : OnXattr plainHost (soloFile []) [[102]] 1 [117] none := ⟨rfl, _, rfl, rfl⟩
  exact untagged.put (some value)

/-- A value replaced by a longer one: the entry cannot be applied on the old value,
which it reads beyond its end. Replaced by a shorter one: the checksum does not
match, as the entry gives the new value with a zero after it. -/
theorem replaced_value_not_restored :
    (∃ entry, BilogEntry.tryFrom (.setxattr [[102]] [117] [1, 2] 0) plainHost (taggedFile [1]) = .ok entry ∧
      entry.apply plainHost (taggedFile [1]) = .error (.panic "index out of bounds")) ∧
    ∃ entry, BilogEntry.tryFrom (.setxattr [[102]] [117] [1] 0) plainHost (taggedFile [1, 2]) = .ok entry ∧
      entry.apply plainHost (taggedFile [1, 2]) = .error mismatch := by
  exact ⟨⟨_, rfl, rfl⟩, _, rfl, by decide +kernel⟩

theorem same_length_value_reversible_iff :
    (∃ entry, BilogEntry.tryFrom (.setxattr [[102]] [117] [2] 0) plainHost (taggedFile [1]) = .ok entry ∧
      flip plainHost entry (taggedFile [1]) = some (withXattr (taggedFile [1]) 1 [117] (some [2])) ∧
      flip plainHost entry (withXattr (taggedFile [1]) 1 [117] (some [2])) = some (taggedFile [1])) ↔
    Exchangeable (some [1]) (some [2]) :=
  xattr_entry_reversible_iff (onXattr_taggedFile [1]) .set ((onXattr_taggedFile [1]).run_set [2])
    (by rintro _ ⟨⟩; decide) (by rintro _ ⟨⟩; decide)

end Fsyncer.Bilog
