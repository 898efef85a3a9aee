import XrdBlackhole.Stub

/-!
# Transfer statistics

`recordTransfer` adds one closed transfer to the global aggregates. `Snapshot` has the
integer members, for which the order of the transfers does not matter, and `Manager`
has all of them, with any arithmetic for the two sums of throughputs.
-/

namespace XrdBlackhole

structure TransferStats where
  path : Str := []
  bytesWritten : Word := 0
  bytesRead : Word := 0
  writeOps : CInt := 0
  writeAioOps : CInt := 0
  readOps : CInt := 0
  errors : CInt := 0
  wasWrite : Bool := false
  deriving DecidableEq

structure Snapshot where
  totalTransfers : Word := 0
  writeTransfers : Word := 0
  readTransfers : Word := 0
  totalBytesWritten : Word := 0
  totalBytesRead : Word := 0
  totalErrors : Word := 0
  deriving DecidableEq

namespace Snapshot

def recordTransfer (m : Snapshot) (s : TransferStats) : Snapshot where
  totalTransfers := m.totalTransfers + 1
  writeTransfers :=
    if 0 < s.bytesWritten.toInt then m.writeTransfers + 1 else m.writeTransfers
  readTransfers :=
    if 0 < s.bytesRead.toInt then m.readTransfers + 1 else m.readTransfers
  totalBytesWritten := m.totalBytesWritten + s.bytesWritten
  totalBytesRead := m.totalBytesRead + s.bytesRead
  totalErrors := m.totalErrors + s.errors.setWidth 64

theorem recordTransfer_comm (m : Snapshot) (s t : TransferStats) :
    (m.recordTransfer s).recordTransfer t = (m.recordTransfer t).recordTransfer s := by
  have hif : ∀ (p q : Prop) [Decidable p] [Decidable q] (x : Word),
      (if p then (if q then x + 1 else x) + 1 else if q then x + 1 else x) =
        if q then (if p then x + 1 else x) + 1 else if p then x + 1 else x := by
    intro p q _ _ x
    split_ifs <;> rfl
  simp only [Snapshot.recordTransfer, Snapshot.mk.injEq]
  exact ⟨trivial, hif _ _ _, hif _ _ _, by ac_rfl, by ac_rfl, by ac_rfl⟩

end Snapshot

structure TimedTransfer extends TransferStats where
  durationUs : Word := 0
  deriving DecidableEq

/-- What is done with a `double`. No law is assumed, so a sum may depend on the order
of its terms. The value is printed with two places, as so many hundredths. -/
class Floating (R : Type) extends Zero R, Add R where
  quotient : ℤ → ℤ → R
  average : R → ℕ → R
  cents : R → ℕ

def throughputMiBs (R : Type) [Floating R] (bytes durationUs : Word) : R :=
  if durationUs.toInt ≤ 0 ∨ bytes.toInt ≤ 0 then 0
  else Floating.quotient bytes.toInt durationUs.toInt

structure Manager (R : Type) [Floating R] extends Snapshot where
  sumWriteMiBs : R := 0
  sumReadMiBs : R := 0

namespace Manager
variable {R : Type} [Floating R]

def recordTransfer (m : Manager R) (s : TimedTransfer) : Manager R where
  toSnapshot := m.toSnapshot.recordTransfer s.toTransferStats
  sumWriteMiBs :=
    if 0 < s.bytesWritten.toInt then m.sumWriteMiBs + throughputMiBs R s.bytesWritten s.durationUs
    else m.sumWriteMiBs
  sumReadMiBs :=
    if 0 < s.bytesRead.toInt then m.sumReadMiBs + throughputMiBs R s.bytesRead s.durationUs
    else m.sumReadMiBs

end Manager

def averageMiBs {R : Type} [Floating R] (sum : R) (transfers : Word) : R :=
  if 0 < transfers.toNat then Floating.average sum transfers.toNat else 0

end XrdBlackhole
