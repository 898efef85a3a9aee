import XrdBlackhole.XferLog
import XrdBlackhole.Accounting
import XrdBlackhole.Library.Exposition

/-!
# The metrics document as a whole

The body of a metrics reply is the counters followed by two gauges. A reader of the
exposition format takes it for six families, and what it finds in them is the snapshot.
-/

namespace XrdBlackhole

open Fields Exposition

def emitGauge (name help : Str) (value : ℕ) : Str :=
  "# HELP ".toList ++ name ++ ' ' :: help ++ "\n# TYPE ".toList ++ name ++ ' ' :: "gauge".toList ++
    '\n' :: name ++ ' ' :: hundredths value ++ ['\n']

section
variable {R : Type} [Floating R]

/-- `buildMetrics` with its gauges. -/
def metricsBody (m : Manager R) : Str :=
  (buildMetrics m.toSnapshot).flatMap MetricLine.text ++
    emitGauge "blackhole_write_throughput_MiBs_avg".toList
      "Average write throughput across all completed write transfers (MiB/s)".toList
      (Floating.cents (averageMiBs m.sumWriteMiBs m.writeTransfers)) ++
    emitGauge "blackhole_read_throughput_MiBs_avg".toList
      "Average read throughput across all completed read transfers (MiB/s)".toList
      (Floating.cents (averageMiBs m.sumReadMiBs m.readTransfers))

def counter (name help : Str) (value : ℤ) : Family :=
  ⟨name, help, "counter".toList, [⟨[], decimal value⟩]⟩

def gauge (name help : Str) (value : ℕ) : Family :=
  ⟨name, help, "gauge".toList, [⟨[], hundredths value⟩]⟩

def families (m : Manager R) : List Family :=
  [⟨transfersTotal, "Total number of completed transfers".toList, "counter".toList,
     [⟨writeLabel, decimal m.writeTransfers.toNat⟩, ⟨readLabel, decimal m.readTransfers.toNat⟩]⟩,
   counter "blackhole_bytes_written_total".toList
     "Total bytes accepted for writing (data is discarded)".toList m.totalBytesWritten.toInt,
   counter "blackhole_bytes_read_total".toList
     "Total bytes synthesised and returned to readers".toList m.totalBytesRead.toInt,
   counter "blackhole_errors_total".toList "Total error returns across all transfers".toList
     m.totalErrors.toNat,
   gauge "blackhole_write_throughput_MiBs_avg".toList
     "Average write throughput across all completed write transfers (MiB/s)".toList
     (Floating.cents (averageMiBs m.sumWriteMiBs m.writeTransfers)),
   gauge "blackhole_read_throughput_MiBs_avg".toList
     "Average read throughput across all completed read transfers (MiB/s)".toList
     (Floating.cents (averageMiBs m.sumReadMiBs m.readTransfers))]

theorem emitMetric_text (name type help : Str) (value : ℤ) (labels : Str) :
    (emitMetric name type help value labels).flatMap MetricLine.text =
      Family.text ⟨name, help, type, [⟨labels, decimal value⟩]⟩ := by
  have hhelp : (MetricLine.help name help).text = helpMark ++ name ++ ' ' :: help ++ ['\n'] := rfl
  have htype : (MetricLine.type name type).text = typeMark ++ name ++ ' ' :: type ++ ['\n'] := rfl
  have hsample : (MetricLine.sample name labels value).text =
      Sample.line name ⟨labels, decimal value⟩ ++ ['\n'] := rfl
  rw [emitMetric, List.flatMap_cons, List.flatMap_cons, List.flatMap_cons, List.flatMap_nil, hhelp,
    htype, hsample]
  rfl

theorem emitGauge_text (name help : Str) (value : ℕ) :
    emitGauge name help value = (gauge name help value).text := by
  have hfirst : emitGauge name help value = helpMark ++ name ++ ' ' :: help ++ '\n' :: typeMark ++
      name ++ ' ' :: "gauge".toList ++ '\n' :: name ++ ' ' :: hundredths value ++ ['\n'] := rfl
  have hlast : (gauge name help value).text = (helpMark ++ name ++ ' ' :: help ++ ['\n']) ++
      ((typeMark ++ name ++ ' ' :: "gauge".toList ++ ['\n']) ++
        ((name ++ [] ++ ' ' :: hundredths value ++ ['\n']) ++ [])) := rfl
  rw [hfirst, hlast]
  generalize "gauge".toList = kind
  simp only [List.append_assoc, List.cons_append, List.nil_append, List.append_nil]

theorem family_text_concat (name help kind : Str) (s s' : Sample) :
    Family.text ⟨name, help, kind, [s, s']⟩ =
      Family.text ⟨name, help, kind, [s]⟩ ++ (s'.line name ++ ['\n']) := by
  simp [Family.text, Family.lines]

theorem metricsBody_eq (m : Manager R) :
    metricsBody m = print (families m) := by
  have hread : MetricLine.text (.sample transfersTotal readLabel m.readTransfers.toNat) =
      Sample.line transfersTotal ⟨readLabel, decimal m.readTransfers.toNat⟩ ++ ['\n'] := rfl
  rw [metricsBody, buildMetrics, families, emitGauge_text, emitGauge_text, List.flatMap_append,
    List.flatMap_append, List.flatMap_append, List.flatMap_cons, emitMetric_text, emitMetric_text,
    emitMetric_text, emitMetric_text, hread, print]
  simp only [List.flatMap_cons, List.flatMap_nil, family_text_concat, counter, List.append_assoc,
    List.append_nil]

end

def Texts (name help : Str) : Prop :=
  ('\n' ∉ name ∧ name.all isName) ∧ name.head? ≠ some '#' ∧ name ≠ [] ∧ '\n' ∉ help

instance (name help : Str) : Decidable (Texts name help) := inferInstanceAs (Decidable (_ ∧ _))

theorem newline_notMem_decimal (n : ℤ) : '\n' ∉ decimal n := by
  intro h
  rcases mem_toString h with h | h <;> exact absurd h (by decide)

theorem newline_notMem_hundredths (n : ℕ) : '\n' ∉ hundredths n := by
  intro h
  rcases mem_hundredths h with h | h <;> exact absurd h (by decide)

section
variable {name help kind : Str} {value : Str}

theorem Texts.plain (h : Texts name help) (hkind : kind ≠ [] ∧ '\n' ∉ kind) {samples : List Sample}
    (hsamples : ∀ s ∈ samples, s.Plain) (hdistinct : (samples.map Sample.labels).Nodup) :
    Family.Plain ⟨name, help, kind, samples⟩ :=
  ⟨⟨h.1.1, List.all_eq_true.mp h.1.2⟩, h.2.1, h.2.2.1, h.2.2.2, hkind, hsamples, hdistinct⟩

theorem Texts.plain_single (h : Texts name help) (hkind : kind ≠ [] ∧ '\n' ∉ kind)
    (hvalue : '\n' ∉ value) : Family.Plain ⟨name, help, kind, [⟨[], value⟩]⟩ := by
  refine h.plain hkind (fun s hs => ?_) (List.nodup_singleton _)
  rw [List.mem_singleton.mp hs]
  exact ⟨⟨List.not_mem_nil, List.not_mem_nil⟩, hvalue⟩

end

section
variable {R : Type} [Floating R]

theorem families_plain (m : Manager R) : ∀ f ∈ families m, f.Plain := by
  have hcounter : "counter".toList ≠ [] ∧ '\n' ∉ "counter".toList := by decide
  have hgauge : "gauge".toList ≠ [] ∧ '\n' ∉ "gauge".toList := by decide
  have hwrite : '\n' ∉ writeLabel ∧ '\x7d' ∉ writeLabel := by decide
  have hread : '\n' ∉ readLabel ∧ '\x7d' ∉ readLabel := by decide
  have hlabels : [writeLabel, readLabel].Nodup := by decide
  simp only [families, List.forall_mem_cons]
  refine ⟨Texts.plain (by decide) hcounter ?_ hlabels,
    Texts.plain_single (by decide) hcounter (newline_notMem_decimal _),
    Texts.plain_single (by decide) hcounter (newline_notMem_decimal _),
    Texts.plain_single (by decide) hcounter (newline_notMem_decimal _),
    Texts.plain_single (by decide) hgauge (newline_notMem_hundredths _),
    Texts.plain_single (by decide) hgauge (newline_notMem_hundredths _),
    fun _ h => absurd h List.not_mem_nil⟩
  simp only [List.forall_mem_cons]
  exact ⟨⟨hwrite, newline_notMem_decimal _⟩, ⟨hread, newline_notMem_decimal _⟩,
    fun _ h => absurd h List.not_mem_nil⟩

theorem read_metricsBody (m : Manager R) :
    Exposition.read (metricsBody m) = some (families m) := by
  rw [metricsBody_eq]
  refine read_print (families_plain m) ?_
  simp only [families, counter, gauge, List.map_cons, List.map_nil]
  decide

end

structure Counters where
  writes : ℤ
  reads : ℤ
  bytesWritten : ℤ
  bytesRead : ℤ
  errors : ℤ
  deriving DecidableEq

def Snapshot.counters (m : Snapshot) : Counters where
  writes := m.writeTransfers.toNat
  reads := m.readTransfers.toNat
  bytesWritten := m.totalBytesWritten.toInt
  bytesRead := m.totalBytesRead.toInt
  errors := m.totalErrors.toNat

def find (fs : List Family) (name labels : Str) : Option ℤ :=
  (fs.find? (·.name = name)).bind fun f =>
    (f.samples.find? (·.labels = labels)).map fun s => number s.value

def scrape (body : Str) : Option Counters := do
  let fs ← Exposition.read body
  let writes ← find fs transfersTotal writeLabel
  let reads ← find fs transfersTotal readLabel
  let bytesWritten ← find fs "blackhole_bytes_written_total".toList []
  let bytesRead ← find fs "blackhole_bytes_read_total".toList []
  let errors ← find fs "blackhole_errors_total".toList []
  some ⟨writes, reads, bytesWritten, bytesRead, errors⟩

section
variable {R : Type} [Floating R]

theorem scrape_metricsBody (m : Manager R) :
    scrape (metricsBody m) = some m.counters := by
  have hwrites : find (families m) transfersTotal writeLabel =
      some (number (decimal m.writeTransfers.toNat)) := rfl
  have hreads : find (families m) transfersTotal readLabel =
      some (number (decimal m.readTransfers.toNat)) := rfl
  have hwritten : find (families m) "blackhole_bytes_written_total".toList [] =
      some (number (decimal m.totalBytesWritten.toInt)) := rfl
  have hread : find (families m) "blackhole_bytes_read_total".toList [] =
      some (number (decimal m.totalBytesRead.toInt)) := rfl
  have herrors : find (families m) "blackhole_errors_total".toList [] =
      some (number (decimal m.totalErrors.toNat)) := rfl
  simp only [scrape, read_metricsBody, hwrites, hreads, hwritten, hread, herrors, decimal,
    number_toString, Option.bind_eq_bind, Option.bind_some]
  rfl

/-- A metrics reply is a document whose six families are announced once, and a scraper
finds the exact counters of the snapshot in it. -/
theorem metrics_round_trip (m : Manager R) :
    Exposition.read (metricsBody m) = some (families m) ∧
      scrape (metricsBody m) = some m.counters :=
  ⟨read_metricsBody m, scrape_metricsBody m⟩

end

def tally (ts : List TransferStats) : Counters where
  writes := ts.countP fun s => 0 < s.bytesWritten.toNat
  reads := ts.countP fun s => 0 < s.bytesRead.toNat
  bytesWritten := ((ts.map fun s => s.bytesWritten.toNat).sum : ℕ)
  bytesRead := ((ts.map fun s => s.bytesRead.toNat).sum : ℕ)
  errors := ((ts.map fun s => s.errors.toNat).sum : ℕ)

structure LogFits (ts : List TransferStats) : Prop where
  transfers : ts.length < 2 ^ 63
  written : (ts.map fun s => s.bytesWritten.toNat).sum < 2 ^ 63
  read : (ts.map fun s => s.bytesRead.toNat).sum < 2 ^ 63
  errors : (ts.map fun s => s.errors.toNat).sum < 2 ^ 63

def moved (s : TransferStats) : ℕ × ℕ := (s.bytesWritten.toNat, s.bytesRead.toNat)

theorem replay_sums (ts : List TransferStats) :
    (({} : Snapshot).replay ts).Sums (ts.reverse.map moved) ∧
      (({} : Snapshot).replay ts).totalErrors =
        BitVec.ofNat 64 (ts.map fun s => s.errors.toNat).sum := by
  induction ts using List.reverseRecOn with
  | nil => exact ⟨.nil, rfl⟩
  | append_singleton ts s ih =>
    have hlast : ({} : Snapshot).replay (ts ++ [s]) =
        (({} : Snapshot).replay ts).recordTransfer s := List.foldl_concat ..
    rw [hlast, List.reverse_concat, List.map_cons, List.map_append, List.sum_append,
      BitVec.ofNat_add, ← ih.2]
    refine ⟨ih.1.recordTransfer (by simp) (by simp), ?_⟩
    simp [Snapshot.recordTransfer, BitVec.ofNat_toNat]

theorem replay_counters {ts : List TransferStats} (h : LogFits ts) :
    (({} : Snapshot).replay ts).counters = tally ts ∧
      (({} : Snapshot).replay ts).totalTransfers.toNat = ts.length := by
  obtain ⟨hsums, herrors⟩ := replay_sums ts
  have hbounded : Snapshot.Bounded (ts.reverse.map moved) := by
    refine ⟨by simpa using h.transfers, ?_, ?_⟩
    · simpa [moved, Function.comp_def] using h.written
    · simpa [moved, Function.comp_def] using h.read
  have hmatches := hsums.matches hbounded
  refine ⟨?_, by simpa using hmatches.totalTransfers⟩
  rw [Snapshot.counters, tally, hmatches.writeTransfers, hmatches.readTransfers,
    hmatches.totalBytesWritten, hmatches.totalBytesRead, herrors, toNat_ofNat_of_lt h.errors]
  simp only [moved, List.map_map, List.countP_map, List.countP_reverse, List.map_reverse,
    List.sum_reverse, Function.comp_def]
  rfl

section
variable {τ : Type} [DecidableEq τ] {R : Type} [Floating R]
  {past : List (Concurrent.Event τ StatsMethod (StatsReply R))}
  {s : Monitor.State τ (Manager R) StatsMethod (StatsReply R)}

/-- Whatever the order in which threads have recorded transfers, as long as none is
still recording, the log lines alone tell all transfers, and the scraped metrics and
the summary are the totals of these lines. -/
theorem metrics_tell_log (hrun : (LockedStats.threads τ R).Run { shared := {} } past s)
    (hidle : ∀ t, s.thread t = .idle) (hpaths : ∀ t ∈ xferLog past, '\x00' ∉ t.path)
    (hfits : LogFits ((xferLog past).map TimedTransfer.toTransferStats)) :
    ∃ ts totals, ((xferLog past).map (xferText R)).mapM readXfer = some ts ∧
      scrape (metricsBody s.shared) = some (tally (ts.map TimedTransfer.toTransferStats)) ∧
      readStats (statsText s.shared) = some totals ∧ totals.transfers.toNat = ts.length ∧
      totals.bytesWritten.toInt =
        (tally (ts.map TimedTransfer.toTransferStats)).bytesWritten ∧
      totals.bytesRead.toInt = (tally (ts.map TimedTransfer.toTransferStats)).bytesRead ∧
      (totals.errors.toNat : ℤ) = (tally (ts.map TimedTransfer.toTransferStats)).errors := by
  have hreplay := Manager.quiescent_counts hrun hidle
  obtain ⟨hcounters, hlength⟩ := replay_counters hfits
  rw [← hreplay] at hcounters hlength
  refine ⟨xferLog past, s.shared.totals, mapM_readXfer R hpaths, ?_, readStats_statsText _,
    hlength.trans (List.length_map _), congrArg Counters.bytesWritten hcounters,
    congrArg Counters.bytesRead hcounters, congrArg Counters.errors hcounters⟩
  rw [scrape_metricsBody, hcounters]

end

theorem metrics_tell_log_overtaken :
    ∃ s, (LockedStats.threads Bool ℚ).Run { shared := {} } overtaken s ∧
      ([downloaded, uploaded].map (xferText ℚ)).mapM readXfer = some [downloaded, uploaded] ∧
      scrape (metricsBody s.shared) = some ⟨1, 1, 6291456, 1048576, 0⟩ ∧
      readStats (statsText s.shared) = some ⟨2, 6291456, 1048576, 0⟩ := by
  obtain ⟨s, hidle, hrun⟩ := overtaken_run
  have hlog : xferLog overtaken = [downloaded, uploaded] := rfl
  obtain ⟨ts, totals, hlines, hscrape, hsummary, htransfers, hwritten, hread, herrors⟩ :=
    metrics_tell_log hrun hidle (by decide) ⟨by decide, by decide, by decide, by decide⟩
  rw [hlog] at hlines
  obtain rfl : [downloaded, uploaded] = ts :=
    Option.some.inj ((mapM_readXfer ℚ (by decide)).symm.trans hlines)
  have htally : tally ([downloaded, uploaded].map TimedTransfer.toTransferStats) =
      ⟨1, 1, 6291456, 1048576, 0⟩ := by decide
  rw [htally] at hscrape hwritten hread herrors
  have htotals : totals = ⟨2, 6291456, 1048576, 0⟩ :=
    Totals.ext (BitVec.eq_of_toNat_eq htransfers) (BitVec.eq_of_toInt_eq hwritten)
      (BitVec.eq_of_toInt_eq hread) (BitVec.eq_of_toNat_eq (Int.ofNat_inj.mp herrors))
  exact ⟨s, hrun, hlines, hscrape, htotals ▸ hsummary⟩

end XrdBlackhole
