import XrdBlackhole.Stats
import XrdBlackhole.Library.Machine

/-!
# The exported counters and the transfer log

Every recorded transfer writes one log line, whose `op` field is the mode in which
the file was opened, and counts towards the label `write` or `read` by the bytes
which it moved. The two agree exactly for the transfers which moved bytes in the
direction of their mode and in no other. The fields and gauges which depend on
times are left out.
-/

namespace XrdBlackhole

def decimal (n : ℤ) : Str := (toString n).toList

def xferFields (s : TransferStats) : List (Str × Str) :=
  [("path".toList, s.path),
   ("op".toList, if s.wasWrite then "write".toList else "read".toList),
   ("written".toList, decimal s.bytesWritten.toInt),
   ("read".toList, decimal s.bytesRead.toInt),
   ("write_ops".toList, decimal s.writeOps.toNat),
   ("aio_ops".toList, decimal s.writeAioOps.toNat),
   ("read_ops".toList, decimal s.readOps.toNat),
   ("errors".toList, decimal s.errors.toNat)]

inductive MetricLine
  | help (name text : Str)
  | type (name kind : Str)
  | sample (name labels : Str) (value : ℤ)
  deriving DecidableEq

def MetricLine.text : MetricLine → Str
  | .help name text => "# HELP ".toList ++ name ++ ' ' :: text ++ ['\n']
  | .type name kind => "# TYPE ".toList ++ name ++ ' ' :: kind ++ ['\n']
  | .sample name labels value =>
    name ++ (if labels = [] then [] else '\x7b' :: labels ++ ['\x7d']) ++
      ' ' :: decimal value ++ ['\n']

def emitMetric (name type help : Str) (value : ℤ) (labels : Str) : List MetricLine :=
  [.help name help, .type name type, .sample name labels value]

def transfersTotal : Str := "blackhole_transfers_total".toList
def writeLabel : Str := "op=\"write\"".toList
def readLabel : Str := "op=\"read\"".toList

def buildMetrics (s : Snapshot) : List MetricLine :=
  emitMetric transfersTotal "counter".toList "Total number of completed transfers".toList
      s.writeTransfers.toNat writeLabel ++
    .sample transfersTotal readLabel s.readTransfers.toNat ::
    emitMetric "blackhole_bytes_written_total".toList "counter".toList
      "Total bytes accepted for writing (data is discarded)".toList
      s.totalBytesWritten.toInt [] ++
    emitMetric "blackhole_bytes_read_total".toList "counter".toList
      "Total bytes synthesised and returned to readers".toList s.totalBytesRead.toInt [] ++
    emitMetric "blackhole_errors_total".toList "counter".toList
      "Total error returns across all transfers".toList s.totalErrors.toNat []

def samples (metric : Str) (lines : List MetricLine) : List (Str × ℤ) :=
  lines.filterMap fun
    | .sample name labels value => if name = metric then some (labels, value) else none
    | _ => none

def statsMachine : Machine Snapshot TransferStats (List (Str × Str)) :=
  ⟨fun m s => (m.recordTransfer s, xferFields s)⟩

abbrev XferLog := Machine.History TransferStats (List (Str × Str))

def linesWithOp (op : String) (log : XferLog) : ℕ :=
  log.countP fun e => e.2.lookup "op".toList = some op.toList

structure MetricAgrees (m : Snapshot) (log : XferLog) : Prop where
  samples : samples transfersTotal (buildMetrics m) =
    [(writeLabel, (linesWithOp "write" log : ℤ)), (readLabel, (linesWithOp "read" log : ℤ))]
  total : m.totalTransfers.toNat = linesWithOp "write" log + linesWithOp "read" log

def TransferStats.OneWay (s : TransferStats) : Prop :=
  (0 < s.bytesWritten.toInt ↔ s.wasWrite = true) ∧
    (0 < s.bytesRead.toInt ↔ s.wasWrite = false)

def CountsOnce (m : Snapshot) (s : TransferStats) : Prop :=
  s.OneWay ∧ m.totalTransfers.toNat + 1 < 2 ^ 64

section
variable {m : Snapshot} {log : XferLog}

theorem samples_transfersTotal (m : Snapshot) :
    samples transfersTotal (buildMetrics m) =
      [(writeLabel, (m.writeTransfers.toNat : ℤ)), (readLabel, (m.readTransfers.toNat : ℤ))] :=
  rfl

theorem metricAgrees_iff : MetricAgrees m log ↔
    m.writeTransfers.toNat = linesWithOp "write" log ∧
      m.readTransfers.toNat = linesWithOp "read" log ∧
      m.totalTransfers.toNat = linesWithOp "write" log + linesWithOp "read" log := by
  constructor
  · rintro ⟨hsamples, htotal⟩
    rw [samples_transfersTotal] at hsamples
    simp only [List.cons.injEq, Prod.mk.injEq, true_and, and_true, Nat.cast_inj] at hsamples
    exact ⟨hsamples.1, hsamples.2, htotal⟩
  · rintro ⟨hwrite, hread, htotal⟩
    refine ⟨?_, htotal⟩
    rw [samples_transfersTotal, hwrite, hread]

theorem linesWithOp_cons (s : TransferStats) (log : XferLog) :
    linesWithOp "write" ((s, xferFields s) :: log) =
        linesWithOp "write" log + (if s.wasWrite then 1 else 0) ∧
      linesWithOp "read" ((s, xferFields s) :: log) =
        linesWithOp "read" log + (if s.wasWrite then 0 else 1) := by
  have hop : (xferFields s).lookup "op".toList =
      some (if s.wasWrite then "write".toList else "read".toList) := rfl
  simp only [linesWithOp, List.countP_cons, hop]
  cases s.wasWrite <;> exact ⟨rfl, rfl⟩

theorem toNat_succ (x : Word) :
    (x + 1).toNat = x.toNat + 1 ∧ x.toNat + 1 < 2 ^ 64 ∨
      (x + 1).toNat = 0 ∧ x.toNat + 1 = 2 ^ 64 := by
  have hx := x.isLt
  rw [BitVec.toNat_add, show (1 : Word).toNat = 1 from rfl]
  omega

theorem metricAgrees_step (hm : MetricAgrees m log) (s : TransferStats) :
    MetricAgrees (m.recordTransfer s) ((s, xferFields s) :: log) ↔ CountsOnce m s := by
  obtain ⟨hwrite, hread, htotal⟩ := metricAgrees_iff.mp hm
  rw [metricAgrees_iff, (linesWithOp_cons s log).1, (linesWithOp_cons s log).2, ← hwrite, ← hread]
  have hw := toNat_succ m.writeTransfers
  have hr := toNat_succ m.readTransfers
  have ht := toNat_succ m.totalTransfers
  simp only [Snapshot.recordTransfer, CountsOnce, TransferStats.OneWay]
  cases s.wasWrite <;> by_cases hwritten : 0 < s.bytesWritten.toInt <;>
    by_cases hreturned : 0 < s.bytesRead.toInt <;>
    simp only [hwritten, hreturned, if_true, if_false, Bool.false_eq_true, Bool.true_eq_false,
      iff_self, iff_true, iff_false, not_true, and_self, true_and, and_false, false_and] <;>
    omega

end

/-- In every run of the manager the two samples are the numbers of lines with
`op=write` and `op=read`, all along, exactly when every recorded transfer moved
bytes in the direction of its mode alone. -/
theorem transfer_metric_iff (ss : List TransferStats) :
    statsMachine.logged.Always (fun s => MetricAgrees s.1 s.2) ({}, []) ss ↔
      statsMachine.EveryStep CountsOnce {} ss := by
  rw [← Machine.everyStep_logged CountsOnce {} []]
  exact Machine.always_iff_everyStep (I := fun _ => True) (fun _ _ _ => trivial)
    (fun s i _ hs _ => metricAgrees_step hs i) trivial (metricAgrees_iff.mpr ⟨rfl, rfl, rfl⟩)
    (Machine.everyStep_of_forall (G := fun _ _ => True) (fun _ _ => trivial) _ _)

theorem empty_upload_uncounted :
    ¬ statsMachine.logged.Always (fun s => MetricAgrees s.1 s.2) ({}, [])
      [{ path := "/f".toList, wasWrite := true }] := by
  intro hall
  have hone := (metricAgrees_iff.mp hall.2).1
  revert hone
  decide

end XrdBlackhole
