import XrdBlackhole.LockedStats

/-!
# The text of the log

Throughputs and averages are printed with two places, whatever the floating-point
arithmetic gives. A path may contain anything that a C string can, also text which looks
like a field, so a line is read from its end.
-/

namespace XrdBlackhole

open Fields

def TimedTransfer.fields (R : Type) [Floating R] (s : TimedTransfer) : List (Str × Str) :=
  [("op".toList, if s.wasWrite then "write".toList else "read".toList),
   ("written".toList, decimal s.bytesWritten.toInt),
   ("read".toList, decimal s.bytesRead.toInt),
   ("duration_us".toList, decimal s.durationUs.toInt),
   ("write_MiBs".toList,
     hundredths (Floating.cents (throughputMiBs R s.bytesWritten s.durationUs))),
   ("read_MiBs".toList, hundredths (Floating.cents (throughputMiBs R s.bytesRead s.durationUs))),
   ("write_ops".toList, decimal s.writeOps.toNat),
   ("aio_ops".toList, decimal s.writeAioOps.toNat),
   ("read_ops".toList, decimal s.readOps.toNat),
   ("errors".toList, decimal s.errors.toNat)]

def timedKeys : List Str := ["duration_us".toList, "write_MiBs".toList, "read_MiBs".toList]

theorem xferFields_eq (R : Type) [Floating R] (s : TimedTransfer) :
    xferFields s.toTransferStats =
      ("path".toList, s.path) :: (s.fields R).filter fun field => field.1 ∉ timedKeys := rfl

def xferMark : Str := "[XFER] path=".toList

def xferText (R : Type) [Floating R] (s : TimedTransfer) : Str :=
  cString (xferMark ++ s.path ++ fieldsText (s.fields R))

def statsMark : Str := "[STATS]".toList

def statsText {R : Type} [Floating R] (m : Manager R) : Str := statsMark ++ fieldsText m.summary

def readWord (s : Str) : Word := BitVec.ofInt 64 (number s)
def readCount (s : Str) : CInt := BitVec.ofInt 32 (number s)

def xferKeys : List Str :=
  ["errors".toList, "read_ops".toList, "aio_ops".toList, "write_ops".toList, "read_MiBs".toList,
   "write_MiBs".toList, "duration_us".toList, "read".toList, "written".toList, "op".toList]

def readXfer (line : Str) : Option TimedTransfer :=
  match lastFields xferKeys line with
  | some (front, [errors, readOps, aioOps, writeOps, _, _, duration, bytesRead, written, op]) =>
    if xferMark.isPrefixOf front then
      some { path := front.drop xferMark.length, wasWrite := op = "write".toList
             bytesWritten := readWord written, bytesRead := readWord bytesRead
             writeOps := readCount writeOps, writeAioOps := readCount aioOps
             readOps := readCount readOps, errors := readCount errors
             durationUs := readWord duration }
    else none
  | _ => none

def statsKeys : List Str :=
  ["avg_read_MiBs".toList, "avg_write_MiBs".toList, "errors".toList, "read".toList,
   "written".toList, "transfers".toList]

@[ext] structure Totals where
  transfers : Word
  bytesWritten : Word
  bytesRead : Word
  errors : Word
  deriving DecidableEq

def Snapshot.totals (m : Snapshot) : Totals :=
  ⟨m.totalTransfers, m.totalBytesWritten, m.totalBytesRead, m.totalErrors⟩

def readStats (line : Str) : Option Totals :=
  match lastFields statsKeys line with
  | some (front, [_, _, errors, bytesRead, written, transfers]) =>
    if front = statsMark then
      some ⟨readWord transfers, readWord written, readWord bytesRead, readWord errors⟩
    else none
  | _ => none

theorem readWord_toInt (x : Word) : readWord (decimal x.toInt) = x := by
  rw [readWord, decimal, number_toString, BitVec.ofInt_toInt]

theorem readWord_toNat (x : Word) : readWord (decimal x.toNat) = x := by
  rw [readWord, decimal, number_toString, BitVec.ofInt_natCast, BitVec.ofNat_toNat,
    BitVec.setWidth_eq]

theorem readCount_toNat (x : CInt) : readCount (decimal x.toNat) = x := by
  rw [readCount, decimal, number_toString, BitVec.ofInt_natCast, BitVec.ofNat_toNat,
    BitVec.setWidth_eq]

def isPlain (c : Char) : Bool := c ≠ ' ' ∧ c ≠ '\x00'

theorem isPlain_digit {c : Char} (h : c.isDigit) : isPlain c := by
  have hblank : c ≠ ' ' := fun heq => absurd (heq ▸ h) (by decide)
  have hnul : c ≠ '\x00' := fun heq => absurd (heq ▸ h) (by decide)
  simp [isPlain, hblank, hnul]

theorem isPlain_decimal (n : ℤ) : ∀ c ∈ decimal n, isPlain c := by
  intro c hc
  rcases mem_toString hc with rfl | hdigit
  · rfl
  · exact isPlain_digit hdigit

theorem isPlain_hundredths (n : ℕ) : ∀ c ∈ hundredths n, isPlain c := by
  intro c hc
  rcases mem_hundredths hc with rfl | hdigit
  · rfl
  · exact isPlain_digit hdigit

def PlainField (field : Str × Str) : Prop :=
  (∀ c ∈ field.1, isPlain c) ∧ ∀ c ∈ field.2, isPlain c

theorem PlainField.noBlank {field : Str × Str} (h : PlainField field) :
    ' ' ∉ field.1 ∧ ' ' ∉ field.2 :=
  ⟨fun hc => absurd (h.1 ' ' hc) (by decide), fun hc => absurd (h.2 ' ' hc) (by decide)⟩

theorem nul_notMem_fieldsText {fields : List (Str × Str)} (h : ∀ field ∈ fields, PlainField field) :
    '\x00' ∉ fieldsText fields := by
  intro hmem
  obtain ⟨field, hfield, hc⟩ := List.mem_flatMap.mp hmem
  simp only [List.mem_append, List.mem_cons, List.cons_append] at hc
  rcases hc with hc | hc | hc | hc
  · exact absurd hc (by decide)
  · exact absurd ((h field hfield).1 _ hc) (by decide)
  · exact absurd hc (by decide)
  · exact absurd ((h field hfield).2 _ hc) (by decide)

theorem PlainField.decimal {key : Str} (hkey : key.all isPlain) (n : ℤ) :
    PlainField (key, decimal n) :=
  ⟨List.all_eq_true.mp hkey, isPlain_decimal n⟩

theorem PlainField.hundredths {key : Str} (hkey : key.all isPlain) (n : ℕ) :
    PlainField (key, hundredths n) :=
  ⟨List.all_eq_true.mp hkey, isPlain_hundredths n⟩

theorem fields_plain (R : Type) [Floating R] (s : TimedTransfer) :
    ∀ field ∈ s.fields R, PlainField field := by
  have hop : PlainField ("op".toList, if s.wasWrite then "write".toList else "read".toList) := by
    refine ⟨List.all_eq_true.mp (show "op".toList.all isPlain by decide), ?_⟩
    split_ifs <;> exact List.all_eq_true.mp (by decide)
  simp only [TimedTransfer.fields, List.forall_mem_cons]
  exact ⟨hop, .decimal (by decide) _, .decimal (by decide) _, .decimal (by decide) _,
    .hundredths (by decide) _, .hundredths (by decide) _, .decimal (by decide) _,
    .decimal (by decide) _, .decimal (by decide) _, .decimal (by decide) _,
    fun _ h => absurd h List.not_mem_nil⟩

theorem xferText_eq (R : Type) [Floating R] {s : TimedTransfer} (hpath : '\x00' ∉ s.path) :
    xferText R s = xferMark ++ s.path ++ fieldsText (s.fields R) := by
  refine Digits.takeWhile_eq_self fun c hc => decide_eq_true fun heq => ?_
  rw [heq, List.mem_append, List.mem_append] at hc
  rcases hc with (hmark | hname) | hfields
  · exact absurd hmark (by decide)
  · exact hpath hname
  · exact nul_notMem_fieldsText (fields_plain R s) hfields

theorem readXfer_xferText (R : Type) [Floating R] {s : TimedTransfer} (hpath : '\x00' ∉ s.path) :
    readXfer (xferText R s) = some s := by
  have hfields := lastFields_fieldsText (fun field h => (fields_plain R s field h).noBlank)
    (xferMark ++ s.path)
  have hkeys : (s.fields R).reverse.map Prod.fst = xferKeys := rfl
  have hmark : xferMark.isPrefixOf (xferMark ++ s.path) := by simp
  have hop : decide ((if s.wasWrite then "write".toList else "read".toList) = "write".toList) =
      s.wasWrite := by cases s.wasWrite <;> decide
  rw [hkeys] at hfields
  rw [readXfer, xferText_eq R hpath, hfields]
  simp only [TimedTransfer.fields, List.reverse_cons, List.reverse_nil, List.nil_append,
    List.cons_append, List.map_cons, List.map_nil, hmark, if_true, List.drop_left, hop,
    readWord_toInt, readCount_toNat]

theorem mapM_readXfer (R : Type) [Floating R] {ts : List TimedTransfer}
    (hpaths : ∀ s ∈ ts, '\x00' ∉ s.path) :
    (ts.map (xferText R)).mapM readXfer = some ts := by
  induction ts with
  | nil => rfl
  | cons s ts ih =>
    rw [List.map_cons, List.mapM_cons, readXfer_xferText R (hpaths s List.mem_cons_self),
      ih fun t ht => hpaths t (List.mem_cons_of_mem s ht)]
    rfl

section
variable {R : Type} [Floating R]

theorem summary_plain (m : Manager R) : ∀ field ∈ m.summary, PlainField field := by
  simp only [Manager.summary, summaryFields, List.forall_mem_cons]
  exact ⟨.decimal (by decide) _, .decimal (by decide) _, .decimal (by decide) _,
    .decimal (by decide) _, .hundredths (by decide) _, .hundredths (by decide) _,
    fun _ h => absurd h List.not_mem_nil⟩

theorem readStats_statsText (m : Manager R) : readStats (statsText m) = some m.totals := by
  have hfields := lastFields_fieldsText (fun field h => (summary_plain m field h).noBlank) statsMark
  have hkeys : m.summary.reverse.map Prod.fst = statsKeys := rfl
  rw [hkeys] at hfields
  rw [readStats, statsText, hfields]
  simp only [Manager.summary, summaryFields, List.reverse_cons, List.reverse_nil, List.nil_append,
    List.cons_append, List.map_cons, List.map_nil, if_true, readWord_toInt, readWord_toNat]
  rfl

end

/-- A `[XFER]` line tells the whole record of its transfer, whatever the path is, and a
`[STATS]` line tells the totals. -/
theorem log_lines_round_trip (R : Type) [Floating R] :
    (∀ s : TimedTransfer, '\x00' ∉ s.path → readXfer (xferText R s) = some s) ∧
      ∀ m : Manager R, readStats (statsText m) = some m.totals :=
  ⟨fun _ hpath => readXfer_xferText R hpath, readStats_statsText⟩

def misleading : TimedTransfer := { path := "/f op=read written=7".toList, wasWrite := true }

theorem log_lines_round_trip_misleading : readXfer (xferText ℚ misleading) = some misleading :=
  (log_lines_round_trip ℚ).1 misleading (by decide)

end XrdBlackhole
