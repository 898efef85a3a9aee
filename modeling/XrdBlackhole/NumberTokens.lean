import XrdBlackhole.Directives

/-!
# Plain numbers in the configuration

A plain number is a string of decimal digits. The write speed and the option
`count=` take more: blanks and one sign before the digits, with a minus read modulo
`2 ^ 64`. Each is read exactly for the tokens which do not use this.
-/

namespace XrdBlackhole
open Digits Strtoull

def PlainNumber (t : Str) : Prop := t ≠ [] ∧ ∀ c ∈ t, c.isDigit

/-- The write speed accepts exactly the plain numbers below `INT_MAX`, stores their
value, and keeps the old one if it fails. -/
structure WritespeedExact (t : CWord) : Prop where
  accepts : ∀ oss rest, (cfgWritespeedMiBps oss (t :: rest)).1 = true ↔
    PlainNumber t.1 ∧ decimalValue t.1 < INT_MAX
  stores : ∀ oss rest, (cfgWritespeedMiBps oss (t :: rest)).1 = true →
    (cfgWritespeedMiBps oss (t :: rest)).2.1.writespeedMiBs.toNat = decimalValue t.1
  keeps : ∀ oss rest, (cfgWritespeedMiBps oss (t :: rest)).1 = false →
    (cfgWritespeedMiBps oss (t :: rest)).2.1 = oss

def countToken (x : Str) : Str := "count=".toList ++ x

/-- The option accepts exactly the plain numbers from 1 to `2 ^ 64 - 1`. On a line which
passes with it as the last `count=`, the loop makes that many rounds, and if the line
succeeds it has made that many stubs. -/
structure CountExact (x : Str) : Prop where
  accepts : ∀ d, (∃ r, seedOption d (countToken x) = .ok r) ↔
    PlainNumber x ∧ 1 ≤ decimalValue x ∧ decimalValue x < 2 ^ 64
  rounds : ∀ words d, (seedDirective words).2 = some d →
    optionText "count=".toList (words.drop 2) = some x → decimalValue x ≠ 1 →
    ∀ fs, (cfgSeedfile words fs).map (fun r => (r.1, r.2.1)) = seedLoop d (decimalValue x) 0 fs
  seeds : ∀ words fs fs' log, cfgSeedfile words fs = some (true, fs', log) →
    optionText "count=".toList (words.drop 2) = some x →
    fs'.stubs.next = fs.stubs.next + decimalValue x

/-- If the token is a numeral in range, with nothing behind its digits, and its value
is one of `good`, then nothing stands before its digits. -/
def Unsigned (good : Word → Prop) (t : Str) : Prop :=
  ∀ blanks sign digits, Numeral t blanks sign digits [] → decimalValue digits < 2 ^ 64 →
    good (signed sign digits) → blanks = [] ∧ sign = []

section
variable {t blanks sign digits rest : Str}

theorem PlainNumber.numeral (h : PlainNumber t) : Numeral t [] [] t [] :=
  ⟨by simp, by simp, .inl rfl, h.1, h.2, by simp⟩

theorem plain_of_numeral (h : Numeral t [] [] digits []) : PlainNumber t := by
  have hsplit : t = digits := by simpa using h.split
  rw [hsplit]
  exact ⟨h.nonempty, h.digit⟩

def Reads (good : Word → Prop) (t : Str) (value : Word) : Prop :=
  ∃ blanks sign digits, Numeral t blanks sign digits [] ∧ decimalValue digits < 2 ^ 64 ∧
    value = signed sign digits ∧ good value

theorem reads_iff {good : Word → Prop} {value : Word} : Reads good t value ↔
    (strtoull t).endp ≠ t ∧ (strtoull t).endp = [] ∧ (strtoull t).erange = false ∧
      value = (strtoull t).value ∧ good value := by
  constructor
  · rintro ⟨blanks, sign, digits, hnum, hrange, hvalue, hgood⟩
    obtain ⟨hne, hend, herange⟩ := whole_iff.mpr ⟨blanks, sign, digits, hnum, hrange⟩
    refine ⟨hne, hend, herange, ?_, hgood⟩
    rw [hvalue, hnum.strtoull_of_lt hrange]
  · rintro ⟨hne, hend, herange, hvalue, hgood⟩
    obtain ⟨blanks, sign, digits, hnum, hrange⟩ := whole_iff.mp ⟨hne, hend, herange⟩
    rw [hnum.strtoull_of_lt hrange] at hvalue
    exact ⟨blanks, sign, digits, hnum, hrange, hvalue, hgood⟩

theorem PlainNumber.reads_iff {good : Word → Prop} (h : PlainNumber t) (value : Word) :
    Reads good t value ↔ value.toNat = decimalValue t ∧ good value := by
  constructor
  · rintro ⟨blanks, sign, digits, hnum, hrange, rfl, hgood⟩
    obtain ⟨rfl, rfl, rfl, -⟩ := hnum.unique h.numeral
    refine ⟨?_, hgood⟩
    rw [signed, if_neg (by simp), BitVec.toNat_ofNat, Nat.mod_eq_of_lt hrange]
  · rintro ⟨hvalue, hgood⟩
    refine ⟨[], [], t, h.numeral, hvalue ▸ value.isLt, ?_, hgood⟩
    rw [signed, if_neg (by simp), ← hvalue, BitVec.ofNat_toNat, BitVec.setWidth_eq]

theorem reads_plain_iff {good : Word → Prop} :
    (∀ value, Reads good t value → PlainNumber t) ↔ Unsigned good t := by
  constructor
  · intro hplain blanks sign digits hnum hrange hgood
    have ht := hplain _ ⟨blanks, sign, digits, hnum, hrange, rfl, hgood⟩
    obtain ⟨rfl, rfl, -, -⟩ := hnum.unique ht.numeral
    exact ⟨rfl, rfl⟩
  · rintro hunsigned value ⟨blanks, sign, digits, hnum, hrange, rfl, hgood⟩
    obtain ⟨rfl, rfl⟩ := hunsigned blanks sign digits hnum hrange hgood
    exact plain_of_numeral hnum

end

def Slow (value : Word) : Prop := value.toNat < INT_MAX

theorem writespeed_ok_iff {t : Str} {value : Word} :
    writespeed t = .ok value ↔ Reads Slow t value := by
  rw [reads_iff]
  unfold writespeed
  dsimp only
  constructor
  · intro h
    split_ifs at h with hend hlarge
    obtain rfl := Except.ok.inj h
    rw [not_or, not_not] at hend
    rw [not_or, not_le, Bool.not_eq_true] at hlarge
    exact ⟨hend.1, hend.2, hlarge.1, rfl, hlarge.2⟩
  · rintro ⟨hne, hend, herange, rfl, hslow⟩
    rw [if_neg (not_or.mpr ⟨hne, not_not.mpr hend⟩), if_neg]
    exact not_or.mpr ⟨Bool.eq_false_iff.mp herange, not_le.mpr hslow⟩

theorem seedOption_count {x : Str} {d d' : SeedDirective} {log : List Emsg} :
    seedOption d (countToken x) = .ok (d', log) ↔
      ∃ value, Reads (· ≠ 0) x value ∧ d' = { d with count := value } ∧ log = [] := by
  simp only [reads_iff]
  have hcount : "count=".toList.isPrefixOf (countToken x) = true :=
    List.isPrefixOf_iff_prefix.mpr (List.prefix_append _ _)
  have hdrop : (countToken x).drop 6 = x := rfl
  unfold seedOption
  simp only [hcount, if_true, hdrop]
  constructor
  · intro h
    split_ifs at h with hbad
    obtain ⟨rfl, rfl⟩ := Prod.mk.inj (Except.ok.inj h)
    simp only [not_or, not_not, Bool.not_eq_true] at hbad
    exact ⟨_, ⟨hbad.1, hbad.2.1, hbad.2.2.1, rfl, hbad.2.2.2⟩, rfl, rfl⟩
  · rintro ⟨value, ⟨hne, hend, herange, rfl, hnonzero⟩, rfl, rfl⟩
    rw [if_neg]
    simp only [not_or, not_not]
    exact ⟨hne, hend, Bool.eq_false_iff.mp herange, hnonzero⟩

theorem seedOptions_count {x : Str} {d d' : SeedDirective} {toks : List CWord}
    (h : (seedOptions d toks).2 = some d') (hx : optionText "count=".toList toks = some x) :
    Reads (· ≠ 0) x d'.count := by
  induction toks generalizing d with
  | nil => cases hx
  | cons tok toks ih =>
    rw [seedOptions] at h
    cases hopt : seedOption d tok.1 with
    | error e =>
      rw [hopt] at h
      cases h
    | ok r =>
      rw [hopt] at h
      rw [optionText] at hx
      cases hlater : optionText "count=".toList toks with
      | some y =>
        rw [hlater, Option.some_or] at hx
        exact ih h (hlater.trans hx)
      | none =>
        rw [hlater, Option.none_or, behind, Option.ite_none_right_eq_some] at hx
        obtain ⟨hhead, hrest⟩ := hx
        have htok : tok.1 = countToken x := by
          rw [← Option.some.inj hrest]
          exact List.prefix_iff_eq_append.mp (List.isPrefixOf_iff_prefix.mp hhead) |>.symm
        rw [htok] at hopt
        obtain ⟨value, hreads, hfirst, -⟩ := seedOption_count.mp hopt
        rw [seedOptions_asked h, hlater, hfirst]
        exact hreads

theorem cfgWritespeedMiBps_ok_iff {oss : Oss} {t : CWord} {rest : List CWord} :
    (cfgWritespeedMiBps oss (t :: rest)).1 = true ↔ ∃ value, Reads Slow t.1 value := by
  simp only [← writespeed_ok_iff]
  rw [cfgWritespeedMiBps]
  cases writespeed t.1 <;> simp

theorem cfgWritespeedMiBps_stores {oss : Oss} {t : CWord} {value : Word}
    (h : Reads Slow t.1 value) (rest : List CWord) :
    (cfgWritespeedMiBps oss (t :: rest)).2.1.writespeedMiBs = value := by
  rw [cfgWritespeedMiBps, writespeed_ok_iff.mpr h]

theorem writespeedExact_iff (t : CWord) : WritespeedExact t ↔ Unsigned Slow t.1 := by
  rw [← reads_plain_iff]
  constructor
  · intro hexact value hreads
    exact ((hexact.accepts {} []).mp (cfgWritespeedMiBps_ok_iff.mpr ⟨value, hreads⟩)).1
  · intro hplain
    refine ⟨fun oss rest => ?_, fun oss rest hok => ?_, fun oss rest => cfgWritespeedMiBps_rejected⟩
    · rw [cfgWritespeedMiBps_ok_iff]
      constructor
      · rintro ⟨value, hreads⟩
        have ht := hplain value hreads
        obtain ⟨hvalue, hslow⟩ := (ht.reads_iff value).mp hreads
        rw [Slow, hvalue] at hslow
        exact ⟨ht, hslow⟩
      · rintro ⟨ht, hlt⟩
        have hvalue : (BitVec.ofNat 64 (decimalValue t.1)).toNat = decimalValue t.1 :=
          toNat_ofNat_of_lt (hlt.trans (by decide))
        refine ⟨_, (ht.reads_iff _).mpr ⟨hvalue, ?_⟩⟩
        rwa [Slow, hvalue]
    · obtain ⟨value, hreads⟩ := cfgWritespeedMiBps_ok_iff.mp hok
      rw [cfgWritespeedMiBps_stores hreads]
      exact (((hplain value hreads).reads_iff value).mp hreads).1

theorem countExact_iff (x : Str) : CountExact x ↔ Unsigned (· ≠ 0) x := by
  rw [← reads_plain_iff]
  constructor
  · intro hexact value hreads
    exact ((hexact.accepts { path := ⟨[], by simp⟩, size := 0 }).mp
      ⟨_, seedOption_count.mpr ⟨value, hreads, rfl, rfl⟩⟩).1
  · intro hplain
    have hcount : ∀ words d, (seedDirective words).2 = some d →
        optionText "count=".toList (words.drop 2) = some x → d.count.toNat = decimalValue x := by
      intro words d hd hx
      obtain ⟨path, sizeval, toks, size, rfl, -, hopts, -⟩ := seedDirective_some hd
      have hreads := seedOptions_count hopts hx
      exact (((hplain d.count hreads).reads_iff d.count).mp hreads).1
    refine ⟨fun d => ?_, fun words d hd hx hne fs => ?_, fun words fs fs' log hrun hx => ?_⟩
    · constructor
      · rintro ⟨⟨d', log⟩, hok⟩
        obtain ⟨value, hreads, -⟩ := seedOption_count.mp hok
        have hx := hplain value hreads
        obtain ⟨hvalue, hnonzero⟩ := (hx.reads_iff value).mp hreads
        have hpos : value.toNat ≠ 0 := fun hzero => hnonzero (BitVec.eq_of_toNat_eq hzero)
        have hlt := value.isLt
        exact ⟨hx, by omega, by omega⟩
      · rintro ⟨hx, hpos, hlt⟩
        have hvalue : (BitVec.ofNat 64 (decimalValue x)).toNat = decimalValue x := by
          rw [BitVec.toNat_ofNat, Nat.mod_eq_of_lt hlt]
        refine ⟨_, seedOption_count.mpr ⟨_, (hx.reads_iff _).mpr ⟨hvalue, ?_⟩, rfl, rfl⟩⟩
        intro hzero
        rw [hzero] at hvalue
        exact absurd hvalue.symm (Nat.one_le_iff_ne_zero.mp hpos)
    · have hvalue := hcount words d hd hx
      have hone : d.count ≠ 1 := by
        intro hone
        rw [hone] at hvalue
        exact hne hvalue.symm
      obtain ⟨log, hlog⟩ : ∃ log, seedDirective words = (log, some d) := ⟨_, Prod.ext rfl hd⟩
      rw [cfgSeedfile, hlog, ← hvalue]
      simp only [seedAll, if_neg hone, Option.map_map]
      exact Option.map_id'
    · obtain ⟨d, hd, hall⟩ := cfgSeedfile_true hrun
      rw [← hcount words d hd hx]
      exact seedAll_next hall

/-- For every token, the write speed and the option `count=` are read as plain numbers
exactly when the token does not pass as a number with blanks or a sign. -/
theorem numbers_exact_iff (t : CWord) :
    (WritespeedExact t ↔ Unsigned Slow t.1) ∧ (CountExact t.1 ↔ Unsigned (· ≠ 0) t.1) :=
  ⟨writespeedExact_iff t, countExact_iff t.1⟩

def wrappedSpeed : CWord := ⟨"-18446744073709551615".toList, by decide⟩

theorem wrapped_speed_accepted : (cfgWritespeedMiBps {} [wrappedSpeed]).1 = true ∧
    (cfgWritespeedMiBps {} [wrappedSpeed]).2.1.writespeedMiBs = 1 ∧
    ¬ WritespeedExact wrappedSpeed := by
  have hok : (cfgWritespeedMiBps {} [wrappedSpeed]).1 = true := by decide
  refine ⟨hok, by decide, fun hexact => ?_⟩
  obtain ⟨⟨-, hdigits⟩, -⟩ := (hexact.accepts {} []).mp hok
  exact absurd (hdigits '-' (by decide)) (by decide)

end XrdBlackhole
