import Fsyncer.Bilog

/-! The checksum that guards the entries of modes, owners and timestamps. It
compares exclusive ors of checksums, and the checksum carries the exclusive or
of three states over to their checksums; so the comparison holds whatever state
the entry meets, and no state is ever rejected. -/
namespace Fsyncer.Bilog
open FileTree Vfs Wire Crc32

@[simp] theorem length_hashU32 (value : UInt32) : (hashU32 value).length = 4 := length_leBytes ..

@[simp] theorem length_hashI64 (value : Int64) : (hashI64 value).length = 8 := length_leBytes ..

theorem hashU32_xor (left right : UInt32) :
    hashU32 (left ^^^ right) = xorBytes (hashU32 left) (hashU32 right) := by
  rw [hashU32, UInt32.toNat_xor, leBytes_xor]
  rfl

theorem hashI64_xor (left right : Int64) :
    hashI64 (left ^^^ right) = xorBytes (hashI64 left) (hashI64 right) := by
  rw [hashI64, Int64.toUInt64_xor, UInt64.toNat_xor, leBytes_xor]
  rfl

@[simp] theorem length_hashTimespec (spec : Timespec) : (hashTimespec spec).length = 16 := by
  simp [hashTimespec]

theorem hashTimespec_xor (left right : Timespec) :
    hashTimespec (left ^^^ right) = xorBytes (hashTimespec left) (hashTimespec right) := by
  rw [hashTimespec, hashTimespec, hashTimespec, xorBytes_append (by simp), ← hashI64_xor, ← hashI64_xor]
  rfl

@[simp] theorem length_hashTimespecs (specs : Timespecs) : (hashTimespecs specs).length = 56 := by
  simp [hashTimespecs]

/-- The length in front of the timestamps survives an odd number of exclusive ors. -/
theorem hashTimespecs_xor (first second third : Timespecs) :
    hashTimespecs (xorTimespecs (xorTimespecs first second) third) =
      xorBytes (xorBytes (hashTimespecs first) (hashTimespecs second)) (hashTimespecs third) := by
  simp only [hashTimespecs, xorTimespecs, hashTimespec_xor, List.append_assoc]
  rw [xorBytes_append (by simp), xorBytes_append (by simp), xorBytes_append (by simp),
    xorBytes_append (by simp), xorBytes_append (by simp), xorBytes_append (by simp), xorBytes_thrice]

/-- The comparison every guard makes, for streams of one length. -/
theorem guard_passes (o n c : List UInt8) (length : o.length = n.length) (length' : c.length = n.length) :
    checksumIeee (xorBytes (xorBytes n o) c) ^^^ checksumIeee c = checksumIeee n ^^^ checksumIeee o := by
  rw [checksumIeee_xor_xor n o c length length', UInt32.xor_assoc, UInt32.xor_self, UInt32.xor_zero]

theorem chmod_apply (path : Path) (o n c : UInt32) :
    (BilogChmod.xor (.state path o) (.state path n)).apply (.state path c) =
      .ok (.chmod path (n ^^^ o ^^^ c)) := by
  have passes := guard_passes (hashU32 o) (hashU32 n) (hashU32 c) (by simp) (by simp)
  rw [← hashU32_xor, ← hashU32_xor] at passes
  exact if_neg (not_not.mpr passes)

theorem chown_apply (path : Path) (uid gid uid' gid' uid'' gid'' : UInt32) :
    (BilogChown.xor (.state path uid gid) (.state path uid' gid')).apply (.state path uid'' gid'') =
      .ok (.security path (.unix (uid' ^^^ uid ^^^ uid'') (gid' ^^^ gid ^^^ gid''))) := by
  have passes := guard_passes (hashU32 uid ++ hashU32 gid) (hashU32 uid' ++ hashU32 gid')
    (hashU32 uid'' ++ hashU32 gid'') (by simp) (by simp)
  rw [xorBytes_append (by simp), ← hashU32_xor, ← hashU32_xor, xorBytes_append (by simp),
    ← hashU32_xor, ← hashU32_xor] at passes
  exact if_neg (not_not.mpr passes)

theorem utimens_apply (path : Path) (o n c : Timespecs) :
    (BilogUtimens.xor (.state path o) (.state path n)).apply (.state path c) =
      .ok (.utimens path (xorTimespecs (xorTimespecs n o) c)) := by
  have passes := guard_passes (hashTimespecs o) (hashTimespecs n) (hashTimespecs c) (by simp) (by simp)
  rw [← hashTimespecs_xor] at passes
  exact if_neg (not_not.mpr passes)

/-- A result that is never an error rejects a foreign state only if there is none. -/
private theorem rejects_iff {result : Except Fault VFSCall} (passes : result = .ok call) (known : Prop) :
    (¬ known → ∃ fault, result = .error fault) ↔ known := by
  constructor
  · intro rejects
    by_contra foreign
    obtain ⟨fault, failed⟩ := rejects foreign
    rw [passes] at failed
    cases failed
  · intro held foreign
    exact absurd held foreign

/-- A guard rejects every state foreign to its entry exactly where there is no
foreign state: the current value is the old or the new one. -/
theorem guard_rejects_iff (path : Path) :
    (∀ o n c : UInt32,
      (¬ (c = o ∨ c = n) → ∃ fault,
        (BilogChmod.xor (.state path o) (.state path n)).apply (.state path c) = .error fault) ↔
      c = o ∨ c = n) ∧
    (∀ uid gid uid' gid' uid'' gid'' : UInt32,
      (¬ ((uid'', gid'') = (uid, gid) ∨ (uid'', gid'') = (uid', gid')) → ∃ fault,
        (BilogChown.xor (.state path uid gid) (.state path uid' gid')).apply (.state path uid'' gid'') =
          .error fault) ↔
      (uid'', gid'') = (uid, gid) ∨ (uid'', gid'') = (uid', gid')) ∧
    (∀ o n c : Timespecs,
      (¬ (c = o ∨ c = n) → ∃ fault,
        (BilogUtimens.xor (.state path o) (.state path n)).apply (.state path c) = .error fault) ↔
      c = o ∨ c = n) :=
  ⟨fun o n c => rejects_iff (chmod_apply path o n c) _,
    fun uid gid uid' gid' uid'' gid'' => rejects_iff (chown_apply path uid gid uid' gid' uid'' gid'') _,
    fun o n c => rejects_iff (utimens_apply path o n c) _⟩

/-- A mode changed from 0644 to 0600 and then, behind the journal's back, to 0755:
the entry still applies and yields 0711, which the file never had. -/
theorem foreign_mode_accepted :
    ¬ ((0o100755 : UInt32) = 0o100644 ∨ (0o100755 : UInt32) = 0o100600) ∧
    (BilogChmod.xor (.state [[102]] 0o100644) (.state [[102]] 0o100600)).apply (.state [[102]] 0o100755) =
      .ok (.chmod [[102]] 0o100711) :=
  ⟨by decide, chmod_apply ..⟩

end Fsyncer.Bilog
