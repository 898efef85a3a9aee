import XrdBlackhole.SeedNames

/-!
# The size of a seedfile directive

`SizeToken` is the documented syntax, with the value which a token denotes. The
code takes more tokens: blanks and a sign before the digits, anything behind the
suffix, and values which wrap around. `CleanSize` excludes exactly these.
-/

namespace XrdBlackhole
open Digits

def unitOf (c : Char) : Option ℕ :=
  if c = 'K' ∨ c = 'k' then some 1024
  else if c = 'M' ∨ c = 'm' then some (1024 ^ 2)
  else if c = 'G' ∨ c = 'g' then some (1024 ^ 3)
  else if c = 'T' ∨ c = 't' then some (1024 ^ 4)
  else none

def SizeToken (t : Str) (n : ℕ) : Prop :=
  ∃ digits, digits ≠ [] ∧ (∀ c ∈ digits, c.isDigit) ∧
    (t = digits ∧ n = decimalValue digits ∨
      ∃ c factor, unitOf c = some factor ∧ t = digits ++ [c] ∧ n = decimalValue digits * factor)

def Stub.HasSize (s : Stub) (n : ℕ) : Prop := s.size.toNat = n ∧ s.stat.size.toInt = n

/-- The code passes exactly the sizes below `2 ^ 63`, a line with only a path and such a
size seeds, and every line which has seeded has left a stub of the denoted size at each
of its names which was free, and has made no stub of another size. -/
structure SizeTokenRight (t : CWord) : Prop where
  accepts : (∃ size, seedSize t.1 = .ok size) ↔ ∃ n, SizeToken t.1 n ∧ n < 2 ^ 63
  seeds : ∀ path fs, (∃ fs' log, cfgSeedfile [path, t] fs = some (true, fs', log)) ↔
    ∃ n, SizeToken t.1 n ∧ n < 2 ^ 63
  seeded : ∀ n, SizeToken t.1 n → ∀ path toks fs fs' log,
    cfgSeedfile (path :: t :: toks) fs = some (true, fs', log) →
    let d := asked path (BitVec.ofNat 64 n) toks
    (∀ k < d.count.toNat, ∃ p, seedName d k = some p ∧ (fs.getStub p = none →
      ∃ i, fs'.getStub p = some i ∧ (fs'.stubs.get i).HasSize n)) ∧
    ∀ i, fs.stubs.next ≤ i → i < fs'.stubs.next → (fs'.stubs.get i).HasSize n

/-- If the token starts with a number in range, alone or with a unit behind it, then
nothing stands before it, nothing behind the unit, and the size fits. -/
def CleanSize (t : Str) : Prop :=
  ∀ blanks sign digits rest, Strtoull.Numeral t blanks sign digits rest →
    decimalValue digits < 2 ^ 64 →
    (rest = [] → blanks = [] ∧ sign = [] ∧ decimalValue digits < 2 ^ 63) ∧
      ∀ c tail factor, rest = c :: tail → unitOf c = some factor →
        blanks = [] ∧ sign = [] ∧ tail = [] ∧ decimalValue digits * factor < 2 ^ 63

theorem lower_eq_iff (n : ℕ) :
    (n ||| 0x20 = 'k'.toNat ↔ n = 'K'.toNat ∨ n = 'k'.toNat) ∧
      (n ||| 0x20 = 'm'.toNat ↔ n = 'M'.toNat ∨ n = 'm'.toNat) ∧
      (n ||| 0x20 = 'g'.toNat ↔ n = 'G'.toNat ∨ n = 'g'.toNat) ∧
      (n ||| 0x20 = 't'.toNat ↔ n = 'T'.toNat ∨ n = 't'.toNat) := by
  rcases lt_or_ge n 128 with hn | hn
  · revert n
    decide
  · have hle : n ≤ n ||| 0x20 := Nat.left_le_or
    have hk : 'k'.toNat = 107 ∧ 'K'.toNat = 75 ∧ 'm'.toNat = 109 ∧ 'M'.toNat = 77 ∧
      'g'.toNat = 103 ∧ 'G'.toNat = 71 ∧ 't'.toNat = 116 ∧ 'T'.toNat = 84 := by decide
    omega

theorem suffixFactor_eq (c : Char) : suffixFactor c = (unitOf c).map (BitVec.ofNat 64) := by
  obtain ⟨hk, hm, hg, ht⟩ := lower_eq_iff c.toNat
  have hchar : ∀ d : Char, c.toNat = d.toNat ↔ c = d := fun d => Char.toNat_inj
  simp only [hchar] at hk hm hg ht
  simp only [suffixFactor, unitOf, hk, hm, hg, ht]
  split_ifs <;> rfl

section
variable {t blanks sign digits rest : Str}

theorem seedSize_of_numeral (h : Strtoull.Numeral t blanks sign digits rest)
    (hrange : decimalValue digits < 2 ^ 64) :
    seedSize t = match rest with
      | [] => .ok (Strtoull.signed sign digits)
      | c :: tail =>
        match unitOf c with
        | some factor => .ok (Strtoull.signed sign digits * BitVec.ofNat 64 factor)
        | none => .error ⟨"blackhole.seedfile: unknown size suffix:".toList, c :: tail⟩ := by
  have hr := h.strtoull_of_lt hrange
  have hendp := h.endp_ne
  rw [hr] at hendp
  have hok : ¬ (rest = t ∨ false = true) := by
    rintro (heq | hfalse)
    · exact hendp heq
    · cases hfalse
  rw [seedSize, hr]
  dsimp only
  rw [if_neg hok]
  cases rest with
  | nil => rfl
  | cons c tail =>
    simp only [suffixFactor_eq]
    cases unitOf c <;> rfl

theorem numeral_of_seedSize {size : Word} (h : seedSize t = .ok size) :
    ∃ blanks sign digits rest, Strtoull.Numeral t blanks sign digits rest ∧
      decimalValue digits < 2 ^ 64 ∧
      (rest = [] ∨ ∃ c tail factor, rest = c :: tail ∧ unitOf c = some factor) := by
  have hcheck : ¬ ((Strtoull.strtoull t).endp = t ∨ (Strtoull.strtoull t).erange = true) := by
    intro hbad
    rw [seedSize, if_pos hbad] at h
    cases h
  rw [not_or, Bool.not_eq_true] at hcheck
  obtain ⟨blanks, sign, digits, hnum, hrange⟩ := Strtoull.accepted_iff.mp hcheck
  generalize (Strtoull.strtoull t).endp = rest at hnum
  refine ⟨blanks, sign, digits, rest, hnum, hrange, ?_⟩
  rw [seedSize_of_numeral hnum hrange] at h
  cases rest with
  | nil => exact .inl rfl
  | cons c tail =>
    cases hunit : unitOf c with
    | none =>
      simp only [hunit] at h
      cases h
    | some factor => exact .inr ⟨c, tail, factor, rfl, hunit⟩

theorem unit_not_digit {c : Char} {factor : ℕ} (h : unitOf c = some factor) :
    ¬ c.isDigit ∧ 0 < factor := by
  unfold unitOf at h
  split_ifs at h with hk hm hg ht <;> obtain rfl := Option.some.inj h
  · rcases hk with rfl | rfl <;> decide
  · rcases hm with rfl | rfl <;> decide
  · rcases hg with rfl | rfl <;> decide
  · rcases ht with rfl | rfl <;> decide

theorem SizeToken.numeral {n : ℕ} (h : SizeToken t n) :
    ∃ digits rest, Strtoull.Numeral t [] [] digits rest ∧
      (rest = [] ∧ n = decimalValue digits ∨
        ∃ c factor, rest = [c] ∧ unitOf c = some factor ∧ n = decimalValue digits * factor) := by
  obtain ⟨digits, hne, hdigits, ⟨rfl, rfl⟩ | ⟨c, factor, hunit, rfl, rfl⟩⟩ := h
  · exact ⟨t, [], ⟨by simp, by simp, .inl rfl, hne, hdigits, by simp⟩, .inl ⟨rfl, rfl⟩⟩
  · refine ⟨digits, [c], ⟨by simp, by simp, .inl rfl, hne, hdigits, fun x hx => ?_⟩,
      .inr ⟨c, factor, rfl, hunit, rfl⟩⟩
    obtain rfl := Option.some.inj hx
    exact (unit_not_digit hunit).1

theorem SizeToken.unique {m n : ℕ} (hm : SizeToken t m) (hn : SizeToken t n) : m = n := by
  obtain ⟨digits, rest, hnum, hshape⟩ := hm.numeral
  obtain ⟨digits', rest', hnum', hshape'⟩ := hn.numeral
  obtain ⟨-, -, rfl, rfl⟩ := hnum.unique hnum'
  rcases hshape with ⟨rfl, rfl⟩ | ⟨c, factor, rfl, hunit, rfl⟩ <;>
    rcases hshape' with ⟨hrest, rfl⟩ | ⟨c', factor', hrest, hunit', rfl⟩
  · rfl
  · cases hrest
  · cases hrest
  · obtain rfl := (List.cons.inj hrest).1
    rw [Option.some.inj (hunit.symm.trans hunit')]

theorem SizeToken.seedSize_eq {n : ℕ} (h : SizeToken t n) (hn : n < 2 ^ 63) :
    seedSize t = .ok (BitVec.ofNat 64 n) := by
  obtain ⟨digits, rest, hnum, ⟨rfl, rfl⟩ | ⟨c, factor, rfl, hunit, rfl⟩⟩ := h.numeral
  · rw [seedSize_of_numeral hnum (by omega)]
    rfl
  · have hle : decimalValue digits ≤ decimalValue digits * factor :=
      Nat.le_mul_of_pos_right _ (unit_not_digit hunit).2
    rw [seedSize_of_numeral hnum (by omega)]
    simp only [hunit, BitVec.ofNat_mul]
    rfl

theorem CleanSize.sizeToken (hclean : CleanSize t) {size : Word} (h : seedSize t = .ok size) :
    ∃ n, SizeToken t n ∧ n < 2 ^ 63 := by
  obtain ⟨blanks, sign, digits, rest, hnum, hrange, hrest⟩ := numeral_of_seedSize h
  have hc := hclean blanks sign digits rest hnum hrange
  rcases hrest with rfl | ⟨c, tail, factor, rfl, hunit⟩
  · obtain ⟨rfl, rfl, hlt⟩ := hc.1 rfl
    exact ⟨_, ⟨digits, hnum.nonempty, hnum.digit, .inl ⟨by simpa using hnum.split, rfl⟩⟩, hlt⟩
  · obtain ⟨rfl, rfl, rfl, hlt⟩ := hc.2 c tail factor rfl hunit
    exact ⟨_, ⟨digits, hnum.nonempty, hnum.digit,
      .inr ⟨c, factor, hunit, by simpa using hnum.split, rfl⟩⟩, hlt⟩

end

theorem cfgSeedfile_literal (path t : CWord) (fs : BlackholeFS) :
    cfgSeedfile [path, t] fs = match seedSize t.1 with
      | .error e => some (false, fs, [e])
      | .ok size => some (true, fs.seed path.1 size zeros, []) := by
  have hone : ¬ (1 < (1 : Word).toNat ∧ '%' ∉ path.1) := fun h => absurd h.1 (by decide)
  rw [cfgSeedfile, seedDirective]
  cases seedSize t.1 with
  | error e => rfl
  | ok size =>
    simp only [seedOptions, if_neg hone]
    rfl

theorem SizeToken.seeded {t : CWord} {n : ℕ} (htok : SizeToken t.1 n) (hn : n < 2 ^ 63)
    {path : CWord} {toks : List CWord} {fs fs' : BlackholeFS} {log : List Emsg}
    (hrun : cfgSeedfile (path :: t :: toks) fs = some (true, fs', log)) :
    let d := asked path (BitVec.ofNat 64 n) toks
    (∀ k < d.count.toNat, ∃ p, seedName d k = some p ∧ (fs.getStub p = none →
      ∃ i, fs'.getStub p = some i ∧ (fs'.stubs.get i).HasSize n)) ∧
    ∀ i, fs.stubs.next ≤ i → i < fs'.stubs.next → (fs'.stubs.get i).HasSize n := by
  intro d
  obtain ⟨size, hok, hall⟩ := cfgSeedfile_asked hrun
  obtain rfl := Except.ok.inj (hok.symm.trans (htok.seedSize_eq hn))
  obtain ⟨names, hlen, hseeds, hnames⟩ := seedAll_seeds hall
  have hnew : ∀ i, fs.stubs.next ≤ i → i < fs'.stubs.next → (fs'.stubs.get i).HasSize n := by
    intro i hlo hhi
    obtain ⟨hseeded, hstat⟩ := hseeds.new hlo hhi
    rw [Stub.HasSize, hseeded.size, hstat]
    exact ⟨toNat_ofNat_of_lt hn, toInt_ofNat_of_lt hn⟩
  refine ⟨fun k hk => ?_, hnew⟩
  have hget := List.getElem?_eq_getElem (hlen.symm ▸ hk : k < names.length)
  refine ⟨_, (hnames k hk).trans hget, fun hfree => ?_⟩
  obtain ⟨i, hi⟩ := hseeds.bound _ (List.getElem_mem (hlen.symm ▸ hk : k < names.length))
  rcases hseeds.fresh hi with hold | ⟨hlo, hhi⟩
  · rw [BlackholeFS.getStub, hold] at hfree
    cases hfree
  · exact ⟨i, hi, hnew i hlo hhi⟩

/-- For every token, the size of the directive is accepted and seeded as documented
exactly when the token is clean. -/
theorem sizeTokenRight_iff (t : CWord) : SizeTokenRight t ↔ CleanSize t.1 := by
  constructor
  · intro hright blanks sign digits rest hnum hrange
    have hsize := seedSize_of_numeral hnum hrange
    -- an accepted token has the documented syntax, and a token is cut in one way only
    have htoken : ∀ size, seedSize t.1 = .ok size → blanks = [] ∧ sign = [] ∧
        (rest = [] ∧ decimalValue digits < 2 ^ 63 ∨ ∃ c factor, rest = [c] ∧
          unitOf c = some factor ∧ decimalValue digits * factor < 2 ^ 63) := by
      intro size hok
      obtain ⟨n, htok, hn⟩ := hright.accepts.mp ⟨size, hok⟩
      obtain ⟨digits', rest', hnum', hshape⟩ := htok.numeral
      obtain ⟨rfl, rfl, rfl, rfl⟩ := hnum.unique hnum'
      refine ⟨rfl, rfl, hshape.imp ?_ ?_⟩
      · rintro ⟨rfl, rfl⟩
        exact ⟨rfl, hn⟩
      · rintro ⟨c, factor, rfl, hunit, rfl⟩
        exact ⟨c, factor, rfl, hunit, hn⟩
    refine ⟨?_, ?_⟩
    · rintro rfl
      obtain ⟨hblanks, hsign, ⟨_, hlt⟩ | ⟨c, factor, hrest, _⟩⟩ := htoken _ hsize
      · exact ⟨hblanks, hsign, hlt⟩
      · cases hrest
    · rintro c tail factor rfl hunit
      simp only [hunit] at hsize
      obtain ⟨hblanks, hsign, ⟨hrest, _⟩ | ⟨c', factor', hrest, hunit', hlt⟩⟩ := htoken _ hsize
      · cases hrest
      · obtain ⟨rfl, rfl⟩ := List.cons.inj hrest
        obtain rfl := Option.some.inj (hunit.symm.trans hunit')
        exact ⟨hblanks, hsign, rfl, hlt⟩
  · intro hclean
    have haccepts : (∃ size, seedSize t.1 = .ok size) ↔ ∃ n, SizeToken t.1 n ∧ n < 2 ^ 63 := by
      constructor
      · rintro ⟨size, hok⟩
        exact hclean.sizeToken hok
      · rintro ⟨n, htok, hn⟩
        exact ⟨_, htok.seedSize_eq hn⟩
    refine ⟨haccepts, fun path fs => ?_, fun n htok path toks fs fs' log hrun => ?_⟩
    · rw [← haccepts, cfgSeedfile_literal]
      cases seedSize t.1 <;> simp
    · obtain ⟨size, hok, -⟩ := cfgSeedfile_asked hrun
      obtain ⟨n', htok', hn⟩ := hclean.sizeToken hok
      obtain rfl := htok.unique htok'
      exact htok.seeded hn hrun

theorem negative_size_accepted : ¬ SizeTokenRight ⟨"-5".toList, by decide⟩ := by
  intro hright
  obtain ⟨n, htok, -⟩ := hright.accepts.mp ⟨BitVec.ofNat 64 (2 ^ 64 - 5), by decide⟩
  obtain ⟨digits, rest, hnum, -⟩ := htok.numeral
  have hminus : Strtoull.Numeral "-5".toList [] ['-'] ['5'] [] :=
    ⟨rfl, by simp, by simp, by simp, List.forall_mem_singleton.mpr rfl, by simp⟩
  exact absurd (hnum.unique hminus).2.1 (by decide)

end XrdBlackhole
