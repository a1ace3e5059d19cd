import Fsyncer.JournalReopen

/-! Opening a journal at the configured size, `open_journal` of
`server/mod.rs`. The position of an entry is its offset modulo the size of the
ring, and the ring is as long as the file: a file that is cut to another length
is read at other positions. -/
namespace Fsyncer.JournalResize
open Fsyncer.ByteFile Fsyncer.Machine Fsyncer.Wire Fsyncer.JournalStore
open Fsyncer.JournalLayout Fsyncer.JournalWrite Fsyncer.JournalRun Fsyncer.JournalRetention
open Fsyncer.JournalRecovery Fsyncer.JournalCrash Fsyncer.JournalReopen

variable {T : Type} {codec : Codec T} {j : Journal} {c : JournalConfig} {now : SystemTime}

/-- `Journal::open`. In a ring without a block no offset has a position, and the
traversal divides by zero unless it stops in front of its first read. -/
def openFile (fuel : ℕ) (file : File) (c : JournalConfig) (now : SystemTime) :
    Option (Except Failure Journal) :=
  match Journal.load file c now with
  | .error failure => some (.error failure)
  | .ok j =>
    if j.size = 0 ∧ 4 ≤ usub (alignUpAlways j.header.tail blockSize) j.header.tail
    then some (.error (.panic "attempt to calculate the remainder with a divisor of zero"))
    else Journal.reopen fuel file c now

section Fuel

end Fuel

section Enough

end Enough

section Shrunk

end Shrunk

end Fsyncer.JournalResize
