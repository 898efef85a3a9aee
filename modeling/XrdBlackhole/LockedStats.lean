import XrdBlackhole.Metrics
import XrdBlackhole.Library.Fields
import XrdBlackhole.Library.Monitor

/-!
# The statistics manager under its mutex

`recordTransfer` says its log line and then adds to the members one load and one
store at a time, while `m_mutex` is held. `getSnapshot` and `logSummary` read the
members one at a time under the same mutex.
-/

namespace XrdBlackhole

inductive StatsMethod
  | recordTransfer (s : TimedTransfer)
  | getSnapshot
  | logSummary

inductive StatsReply (R : Type) [Floating R]
  | void
  | snapshot (m : Manager R)
  | said (fields : List (Str × Str))

section
variable {R : Type} [Floating R]

def summaryFields (transfers written bytesRead errors : Word) (avgWrite avgRead : R) :
    List (Str × Str) :=
  [("transfers".toList, decimal transfers.toNat), ("written".toList, decimal written.toInt),
   ("read".toList, decimal bytesRead.toInt), ("errors".toList, decimal errors.toNat),
   ("avg_write_MiBs".toList, Fields.hundredths (Floating.cents avgWrite)),
   ("avg_read_MiBs".toList, Fields.hundredths (Floating.cents avgRead))]

namespace Manager

def summary (m : Manager R) : List (Str × Str) :=
  summaryFields m.totalTransfers m.totalBytesWritten m.totalBytesRead m.totalErrors
    (averageMiBs m.sumWriteMiBs m.writeTransfers) (averageMiBs m.sumReadMiBs m.readTransfers)

def method (m : Manager R) : StatsMethod → Manager R × StatsReply R
  | .recordTransfer s => (m.recordTransfer s, .void)
  | .getSnapshot => (m, .snapshot m)
  | .logSummary => (m, .said m.summary)

def methods : Machine (Manager R) StatsMethod (StatsReply R) := ⟨method⟩

end Manager

namespace LockedStats

open Prog

def addTo {α : Type} [Add α] (load : Manager R → α) (store : α → Manager R → Manager R) (d : α) :
    Prog (Manager R) PUnit := do
  let x ← get load
  modify (store (x + d))

def recordTransfer (s : TimedTransfer) : Prog (Manager R) (StatsReply R) := do
  let writeMiBs := throughputMiBs R s.bytesWritten s.durationUs
  let readMiBs := throughputMiBs R s.bytesRead s.durationUs
  addTo (·.totalTransfers) (fun x m => { m with totalTransfers := x }) 1
  addTo (·.totalBytesWritten) (fun x m => { m with totalBytesWritten := x }) s.bytesWritten
  addTo (·.totalBytesRead) (fun x m => { m with totalBytesRead := x }) s.bytesRead
  addTo (·.totalErrors) (fun x m => { m with totalErrors := x }) (s.errors.setWidth 64)
  if 0 < s.bytesWritten.toInt then
    addTo (·.sumWriteMiBs) (fun x m => { m with sumWriteMiBs := x }) writeMiBs
    addTo (·.writeTransfers) (fun x m => { m with writeTransfers := x }) 1
  if 0 < s.bytesRead.toInt then
    addTo (·.sumReadMiBs) (fun x m => { m with sumReadMiBs := x }) readMiBs
    addTo (·.readTransfers) (fun x m => { m with readTransfers := x }) 1
  pure .void

def getSnapshot : Prog (Manager R) (StatsReply R) := do
  let totalTransfers ← get (·.totalTransfers)
  let writeTransfers ← get (·.writeTransfers)
  let readTransfers ← get (·.readTransfers)
  let totalBytesWritten ← get (·.totalBytesWritten)
  let totalBytesRead ← get (·.totalBytesRead)
  let totalErrors ← get (·.totalErrors)
  let sumWriteMiBs ← get (·.sumWriteMiBs)
  let sumReadMiBs ← get (·.sumReadMiBs)
  pure (.snapshot
    { totalTransfers := totalTransfers, writeTransfers := writeTransfers
      readTransfers := readTransfers, totalBytesWritten := totalBytesWritten
      totalBytesRead := totalBytesRead, totalErrors := totalErrors
      sumWriteMiBs := sumWriteMiBs, sumReadMiBs := sumReadMiBs })

def logSummary : Prog (Manager R) (StatsReply R) := do
  let writeTransfers ← get (·.writeTransfers)
  let sumWriteMiBs ← get (·.sumWriteMiBs)
  let readTransfers ← get (·.readTransfers)
  let sumReadMiBs ← get (·.sumReadMiBs)
  let transfers ← get (·.totalTransfers)
  let written ← get (·.totalBytesWritten)
  let bytesRead ← get (·.totalBytesRead)
  let errors ← get (·.totalErrors)
  pure (.said (summaryFields transfers written bytesRead errors
    (averageMiBs sumWriteMiBs writeTransfers) (averageMiBs sumReadMiBs readTransfers)))

def method : StatsMethod → Prog (Manager R) (StatsReply R)
  | .recordTransfer s => recordTransfer s
  | .getSnapshot => getSnapshot
  | .logSummary => logSummary

abbrev threads (τ : Type) [DecidableEq τ] (R : Type) [Floating R] :
    Lts (Monitor.State τ (Manager R) StatsMethod (StatsReply R))
      (Concurrent.Event τ StatsMethod (StatsReply R)) :=
  Monitor.lts method

@[simp] theorem run_addTo {α : Type} [Add α] (load : Manager R → α)
    (store : α → Manager R → Manager R) (d : α) (m : Manager R) :
    (addTo load store d).run m = (store (load m + d) m, ⟨⟩) := rfl

theorem run_method (c : StatsMethod) (m : Manager R) :
    (method c).run m = Manager.methods.step m c := by
  cases c with
  | recordTransfer s =>
    change (recordTransfer s).run m = (m.recordTransfer s, .void)
    by_cases hwritten : 0 < s.bytesWritten.toInt <;> by_cases hread : 0 < s.bytesRead.toInt <;>
      simp [recordTransfer, Manager.recordTransfer, Snapshot.recordTransfer, hwritten, hread]
  | getSnapshot => rfl
  | logSummary => rfl

end LockedStats

def transfers (cs : List StatsMethod) : List TimedTransfer :=
  cs.filterMap fun
    | .recordTransfer s => some s
    | _ => none

namespace Snapshot

def replay (m : Snapshot) (ss : List TransferStats) : Snapshot := ss.foldl recordTransfer m

theorem replay_perm (m : Snapshot) {ss ss' : List TransferStats} (h : ss.Perm ss') :
    m.replay ss = m.replay ss' :=
  h.foldl_eq' (fun a _ b _ m => recordTransfer_comm m a b) m

end Snapshot

namespace Manager

def replay (m : Manager R) (ss : List TimedTransfer) : Manager R := ss.foldl recordTransfer m

theorem replay_toSnapshot (m : Manager R) (ss : List TimedTransfer) :
    (m.replay ss).toSnapshot = m.toSnapshot.replay (ss.map TimedTransfer.toTransferStats) := by
  induction ss generalizing m with
  | nil => rfl
  | cons s ss ih => exact ih (m.recordTransfer s)

theorem exec_methods (m : Manager R) (cs : List StatsMethod) :
    methods.exec m cs = m.replay (transfers cs) := by
  induction cs generalizing m with
  | nil => rfl
  | cons c cs ih => cases c <;> exact ih _

end Manager

open Concurrent LockedStats

def StatsReply.Shows (m : Manager R) : StatsReply R → Prop
  | .void => True
  | .snapshot m' => m' = m
  | .said fields => fields = m.summary

def xferLog {τ : Type} (past : List (Event τ StatsMethod (StatsReply R))) : List TimedTransfer :=
  transfers ((callOps past).map Prod.snd)

variable {τ : Type} [DecidableEq τ] {m₀ : Manager R}
  {past : List (Event τ StatsMethod (StatsReply R))}
  {s : Monitor.State τ (Manager R) StatsMethod (StatsReply R)}

/-- No snapshot and no summary is torn: one order of whole calls explains the history,
and each of them shows the replay of the transfers before it in this order. -/
theorem snapshot_consistent (hrun : (threads τ R).Run { shared := m₀ } past s) :
    ∃ ops, Linearization Manager.methods m₀ past ops ∧
      ∀ later t o earlier, past = later ++ .ret t o :: earlier → ∃ pre c post,
        ops = pre ++ (t, c) :: post ∧ Explains Manager.methods m₀ earlier t o pre c ∧
        o.Shows (m₀.replay (transfers (pre.map Prod.snd))) := by
  obtain ⟨ops, hlin, -⟩ := Monitor.run_linearization run_method hrun
  refine ⟨ops, hlin, fun later t o earlier hret => ?_⟩
  obtain ⟨pre, c, post, hops, hexp⟩ := hlin.explains later t o earlier hret
  refine ⟨pre, c, post, hops, hexp, ?_⟩
  rw [hexp.reply, Manager.exec_methods]
  cases c <;> trivial

theorem Manager.quiescent (hrun : (threads τ R).Run { shared := m₀ } past s)
    (hidle : ∀ t, s.thread t = .idle) :
    ∃ ts, ts.Perm (xferLog past) ∧ s.shared = m₀.replay ts := by
  obtain ⟨ops, hperm, hshared⟩ := Monitor.run_quiescent run_method hrun hidle
  rw [Manager.exec_methods] at hshared
  exact ⟨_, (hperm.map Prod.snd).filterMap _, hshared⟩

theorem Manager.quiescent_counts (hrun : (threads τ R).Run { shared := m₀ } past s)
    (hidle : ∀ t, s.thread t = .idle) : s.shared.toSnapshot =
      m₀.toSnapshot.replay ((xferLog past).map TimedTransfer.toTransferStats) := by
  obtain ⟨ts, hperm, hshared⟩ := Manager.quiescent hrun hidle
  rw [hshared, Manager.replay_toSnapshot]
  exact m₀.toSnapshot.replay_perm (hperm.map _)

/-- When no call is pending, the integer members are the replay of the log, in whatever
order the threads got the mutex. The sums are those of the same transfers in this order. -/
theorem quiescent_replay (hrun : (threads τ R).Run { shared := m₀ } past s)
    (hidle : ∀ t, s.thread t = .idle) :
    s.shared.toSnapshot =
        m₀.toSnapshot.replay ((xferLog past).map TimedTransfer.toTransferStats) ∧
      ∃ ts, ts.Perm (xferLog past) ∧ s.shared = m₀.replay ts :=
  ⟨Manager.quiescent_counts hrun hidle, Manager.quiescent hrun hidle⟩

end

open Concurrent LockedStats

instance : Floating ℚ where
  quotient bytes durationUs := bytes / durationUs * 10 ^ 6 / 2 ^ 20
  average sum n := sum / n
  cents r := (round (100 * r)).toNat

def uploaded : TimedTransfer :=
  { path := "/up".toList, wasWrite := true, bytesWritten := 6291456, durationUs := 3000000 }

def downloaded : TimedTransfer :=
  { path := "/down".toList, bytesRead := 1048576, durationUs := 1000000 }

def observed : List (Event Bool StatsMethod (StatsReply ℚ)) :=
  [.ret false (.snapshot (({} : Manager ℚ).recordTransfer uploaded)), .ret true .void,
   .call false .getSnapshot, .call true (.recordTransfer uploaded)]

theorem observed_run : ∃ s, (threads Bool ℚ).Run { shared := {} } observed s := by
  obtain ⟨s, -, -, -, hrun⟩ := Monitor.overlap_run method ({} : Manager ℚ) (t := true)
    (u := false) nofun (.recordTransfer uploaded) .getSnapshot
  simp only [run_method] at hrun
  exact ⟨s, hrun⟩

theorem snapshot_consistent_observed :
    ∃ s, (threads Bool ℚ).Run { shared := {} } observed s ∧
      ∃ pre post, Linearization Manager.methods {} observed (pre ++ (false, .getSnapshot) :: post) ∧
        ({} : Manager ℚ).replay (transfers (pre.map Prod.snd)) =
          ({} : Manager ℚ).recordTransfer uploaded := by
  obtain ⟨s, hrun⟩ := observed_run
  obtain ⟨ops, hlin, hall⟩ := snapshot_consistent hrun
  obtain ⟨pre, c, post, rfl, hexp, hshows⟩ := hall [] false _ _ rfl
  have hcall := congrArg List.getLast? hexp.latest
  obtain rfl : .getSnapshot = c := by simpa [calls] using hcall
  exact ⟨s, hrun, pre, post, hlin, hshows.symm⟩

def overtaken : List (Event Bool StatsMethod (StatsReply ℚ)) :=
  [.ret true .void, .ret false .void, .call false (.recordTransfer uploaded),
   .call true (.recordTransfer downloaded)]

theorem overtaken_run : ∃ s, (∀ t, s.thread t = .idle) ∧
    (threads Bool ℚ).Run { shared := {} } overtaken s := by
  obtain ⟨s, hidle, hrun⟩ := Monitor.overtake_run method ({} : Manager ℚ) (t := true)
    (u := false) nofun (.recordTransfer downloaded) (.recordTransfer uploaded)
  simp only [run_method] at hrun
  exact ⟨s, hidle, hrun⟩

theorem quiescent_replay_overtaken :
    ∃ s, (threads Bool ℚ).Run { shared := {} } overtaken s ∧
      s.shared.toSnapshot = { totalTransfers := 2, writeTransfers := 1, readTransfers := 1
                              totalBytesWritten := 6291456, totalBytesRead := 1048576 } ∧
      ∃ ts, ts.Perm [downloaded, uploaded] ∧ s.shared = ({} : Manager ℚ).replay ts := by
  obtain ⟨s, hidle, hrun⟩ := overtaken_run
  obtain ⟨hcounts, hmembers⟩ := quiescent_replay hrun hidle
  exact ⟨s, hrun, hcounts.trans (by decide), hmembers⟩

end XrdBlackhole
