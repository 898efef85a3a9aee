import XrdBlackhole.Library.Printf

/-!
# Printing one `int`

The printed field of a `%d` or `%i` conversion shows its argument, so different
arguments have different fields. `IntSpec` is the text of such a conversion, and a
format with one of them between plain texts prints the texts around the field.
-/

namespace Printf
open Digits

def signedValue : List Char → ℤ
  | '-' :: digits => -decimalValue digits
  | '+' :: digits => decimalValue digits
  | digits => decimalValue digits

def shown (field : List Char) : ℤ := signedValue (field.filter (· ≠ ' '))

theorem signedValue_digits {digits : List Char} (h : ∀ c ∈ digits, c.isDigit) :
    signedValue digits = decimalValue digits := by
  unfold signedValue
  split
  · exact absurd (h '-' List.mem_cons_self) (by decide)
  · exact absurd (h '+' List.mem_cons_self) (by decide)
  · rfl

namespace Spec

theorem body_digit (s : Spec) (x : ℤ) : ∀ c ∈ s.body x, c.isDigit := by
  intro c hc
  have hdigits : c ∈ Nat.toDigits 10 x.natAbs → c.isDigit :=
    Nat.isDigit_of_mem_toDigits (by norm_num) (by norm_num)
  simp only [body, digits] at hc
  split at hc
  · split_ifs at hc
    · exact absurd hc List.not_mem_nil
    · rcases List.mem_append.mp hc with hzero | hdigit
      · rw [List.eq_of_mem_replicate hzero]
        decide
      · exact hdigits hdigit
  · exact hdigits hc

theorem decimalValue_body (s : Spec) (x : ℤ) : decimalValue (s.body x) = x.natAbs := by
  simp only [body, digits]
  split
  · split_ifs with hzero
    · rw [hzero.2]
      rfl
    · rw [List.leftpad, decimalValue_zeros, decimalValue_toDigits]
  · exact decimalValue_toDigits _

theorem filter_pad (s : Spec) (sign : List Char) {body : List Char}
    (hbody : ∀ c ∈ body, c.isDigit) :
    ∃ k, (s.pad sign body).filter (· ≠ ' ') =
      sign.filter (· ≠ ' ') ++ (List.replicate k '0' ++ body) := by
  have hkeep : body.filter (· ≠ ' ') = body := by
    refine List.filter_eq_self.mpr fun c hc => ?_
    have hne : c ≠ ' ' := fun heq => absurd (hbody c hc) (by rw [heq]; decide)
    simpa using hne
  have hblank : ∀ n, (List.replicate n ' ').filter (· ≠ ' ') = [] := by simp
  have hzero : ∀ n, (List.replicate n '0').filter (· ≠ ' ') = List.replicate n '0' := by simp
  simp only [pad]
  split_ifs
  · refine ⟨0, ?_⟩
    simp only [List.filter_append, hkeep, hblank, List.append_nil, List.replicate_zero,
      List.nil_append]
  · refine ⟨s.minWidth - (sign.length + body.length), ?_⟩
    simp only [List.filter_append, hkeep, hzero]
  · refine ⟨0, ?_⟩
    simp only [List.filter_append, hkeep, hblank, List.replicate_zero, List.nil_append]

theorem shown_decimal (s : Spec) (x : ℤ) : shown (s.decimal x) = x := by
  obtain ⟨k, hfilter⟩ := s.filter_pad (s.sign x) (s.body_digit x)
  have hvalue : decimalValue (List.replicate k '0' ++ s.body x) = x.natAbs := by
    rw [decimalValue_zeros, s.decimalValue_body]
  have hdigit : ∀ c ∈ List.replicate k '0' ++ s.body x, c.isDigit := by
    intro c hc
    rcases List.mem_append.mp hc with hzero | hbody
    · rw [List.eq_of_mem_replicate hzero]
      decide
    · exact s.body_digit x c hbody
  rw [shown, decimal, hfilter, sign]
  split_ifs with hneg hplus hspace
  · have hminus : (['-'] : List Char).filter (· ≠ ' ') = ['-'] := by decide
    rw [hminus, List.singleton_append, signedValue, hvalue]
    omega
  · have hplus : (['+'] : List Char).filter (· ≠ ' ') = ['+'] := by decide
    rw [hplus, List.singleton_append, signedValue, hvalue]
    omega
  · have hblank : ([' '] : List Char).filter (· ≠ ' ') = [] := by decide
    rw [hblank, List.nil_append, signedValue_digits hdigit, hvalue]
    omega
  · rw [List.filter_nil, List.nil_append, signedValue_digits hdigit, hvalue]
    omega

theorem decimal_injective (s : Spec) : Function.Injective s.decimal :=
  Function.LeftInverse.injective s.shown_decimal

theorem mem_sign {s : Spec} {x : ℤ} {c : Char} (h : c ∈ s.sign x) :
    c = ' ' ∨ c = '+' ∨ c = '-' := by
  rw [sign] at h
  split_ifs at h
  · exact .inr (.inr (List.mem_singleton.mp h))
  · exact .inr (.inl (List.mem_singleton.mp h))
  · exact .inl (List.mem_singleton.mp h)
  · exact absurd h List.not_mem_nil

theorem mem_decimal {s : Spec} {x : ℤ} {c : Char} (h : c ∈ s.decimal x) :
    c.isDigit ∨ c = ' ' ∨ c = '+' ∨ c = '-' := by
  have hfill : ∀ {n : ℕ}, c ∈ List.replicate n ' ' → c = ' ' := List.eq_of_mem_replicate
  have hzero : ∀ {n : ℕ}, c ∈ List.replicate n '0' → c.isDigit := by
    intro n hc
    rw [List.eq_of_mem_replicate hc]
    decide
  have hbody := s.body_digit x c
  simp only [decimal, pad] at h
  split_ifs at h <;> simp only [List.mem_append] at h
  · rcases h with hsign | hdigit | hblank
    · exact .inr (mem_sign hsign)
    · exact .inl (hbody hdigit)
    · exact .inr (.inl (hfill hblank))
  · rcases h with hsign | hfront | hdigit
    · exact .inr (mem_sign hsign)
    · exact .inl (hzero hfront)
    · exact .inl (hbody hdigit)
  · rcases h with hblank | hsign | hdigit
    · exact .inr (.inl (hfill hblank))
    · exact .inr (mem_sign hsign)
    · exact .inl (hbody hdigit)

theorem pad_length (s : Spec) (sign body : List Char) :
    (s.pad sign body).length = max s.minWidth (sign.length + body.length) := by
  simp only [pad]
  split_ifs <;> simp only [List.length_append, List.length_replicate] <;> omega

theorem decimal_length_le (s : Spec) {x : ℤ} (hx : x.natAbs < 10 ^ 10) :
    (s.decimal x).length ≤ (s.decimal 0).length + 11 := by
  have hsign : (s.sign x).length ≤ 1 := by
    rw [sign]
    split_ifs <;> simp
  have hdigits : (Nat.toDigits 10 x.natAbs).length ≤ 10 :=
    (Nat.length_toDigits_le_iff (by norm_num) (by norm_num)).mpr hx
  have hbody : (s.body x).length ≤ (s.body 0).length + 10 := by
    simp only [body, digits]
    cases s.precision with
    | num p =>
      simp only [List.leftpad]
      split_ifs <;> simp <;> omega
    | none => exact hdigits.trans (Nat.le_add_left _ _)
    | star => exact hdigits.trans (Nat.le_add_left _ _)
  rw [decimal, decimal, pad_length, pad_length]
  omega

theorem decimal_length_le_least (s : Spec) {x : ℤ} (hx : x.natAbs ≤ 2 ^ 31) :
    (s.decimal x).length ≤ (s.decimal (-2 ^ 31)).length := by
  have hsign : (s.sign x).length ≤ (s.sign (-2 ^ 31)).length := by
    rw [sign, sign, if_pos (by norm_num : (-2 ^ 31 : ℤ) < 0)]
    split_ifs <;> simp
  have hdigits : (Nat.toDigits 10 x.natAbs).length ≤
      (Nat.toDigits 10 (-2 ^ 31 : ℤ).natAbs).length := by
    have hleast : (Nat.toDigits 10 (-2 ^ 31 : ℤ).natAbs).length = 10 := by decide
    rw [hleast]
    exact (Nat.length_toDigits_le_iff (by norm_num) (by norm_num)).mpr (by omega)
  have hbody : (s.body x).length ≤ (s.body (-2 ^ 31)).length := by
    simp only [body, digits]
    cases s.precision with
    | num p =>
      have hleast : ¬ (p = 0 ∧ (-2 ^ 31 : ℤ).natAbs = 0) := by norm_num
      simp only [List.leftpad, if_neg hleast]
      split_ifs <;> simp only [List.length_append, List.length_replicate, List.length_nil] <;> omega
    | none => exact hdigits
    | star => exact hdigits
  rw [decimal, decimal, pad_length, pad_length]
  omega

end Spec

/-- The text of a `%d` or `%i` conversion behind its `%`, without modifier and star.
A leading zero of the width would be a flag. -/
structure IntSpec (text flags width precision : List Char) (conv : Char) : Prop where
  split : text = flags ++ (width ++ (precision ++ [conv]))
  flag : ∀ c ∈ flags, isFlag c
  digit : ∀ c ∈ width, c.isDigit
  lead : width.head? ≠ some '0'
  precision : precision = [] ∨ ∃ ds, precision = '.' :: ds ∧ ∀ c ∈ ds, c.isDigit
  conv : conv = 'd' ∨ conv = 'i'

def intSpec (flags width precision : List Char) (conv : Char) : Spec :=
  ⟨flags, number width, (precisionField precision).1, .none, conv⟩

theorem number_ne_star (digits : List Char) : number digits ≠ .star := by
  unfold number
  split_ifs <;> exact Field.noConfusion

theorem precisionField_point {s : List Char} (h : ∀ c, s.head? = some c → c ≠ '*') :
    precisionField ('.' :: s) =
      (.num (decimalValue (s.takeWhile Char.isDigit)), s.dropWhile Char.isDigit) := by
  unfold precisionField
  split
  · next s' heq =>
    rw [(List.cons.inj heq).2] at h
    exact absurd rfl (h '*' rfl)
  · next heq => rw [(List.cons.inj heq).2]
  · next hdot => exact absurd rfl (hdot _)

theorem widthField_of_head {s : List Char} (h : s.head? ≠ some '*') :
    widthField s = (number (s.takeWhile Char.isDigit), s.dropWhile Char.isDigit) := by
  unfold widthField
  split
  · exact absurd rfl h
  · rfl

theorem widthField_split {s : List Char} (h : (widthField s).1 ≠ .star) :
    s = s.takeWhile Char.isDigit ++ (widthField s).2 := by
  revert h
  unfold widthField
  split <;> intro h
  · exact absurd rfl h
  · exact List.takeWhile_append_dropWhile.symm

theorem precisionField_split {s : List Char} (h : (precisionField s).1 ≠ .star) :
    ∃ precision, s = precision ++ (precisionField s).2 ∧
      (precision = [] ∨ ∃ ds, precision = '.' :: ds ∧ ∀ c ∈ ds, c.isDigit) := by
  revert h
  unfold precisionField
  split <;> intro h
  · exact absurd rfl h
  · next s _ =>
    refine ⟨'.' :: s.takeWhile Char.isDigit, ?_, .inr ⟨_, rfl, fun c hc => of_mem_takeWhile hc⟩⟩
    exact congrArg ('.' :: ·) List.takeWhile_append_dropWhile.symm
  · exact ⟨[], rfl, .inl rfl⟩

theorem lengthModifier_none {s : List Char} (h : (lengthModifier s).1 = .none) :
    (lengthModifier s).2 = s := by
  revert h
  unfold lengthModifier
  split <;> intro h
  · cases h
  · cases h
  · cases h
  · split_ifs at h ⊢
    rfl
  · rfl

theorem isDigit_not_flag {c : Char} (h : c.isDigit) (hzero : c ≠ '0') : ¬ isFlag c := by
  intro hflag
  rcases of_decide_eq_true hflag with rfl | rfl | rfl | rfl | rfl <;> revert h hzero <;> decide

theorem isDigit_ne {c d : Char} (h : c.isDigit) (hd : ¬ d.isDigit) : c ≠ d :=
  fun heq => hd (heq ▸ h)

namespace IntSpec
variable {text flags width precision : List Char} {conv : Char}

theorem conv_plain (h : IntSpec text flags width precision conv) :
    ¬ isFlag conv ∧ ¬ conv.isDigit ∧ conv ∈ convChars ∧ conv ≠ '%' ∧ conv ≠ '*' ∧ conv ≠ '.' := by
  rcases h.conv with rfl | rfl <;> decide

theorem precision_eq (h : IntSpec text flags width precision conv) (rest : List Char) :
    precisionField (precision ++ conv :: rest) = ((precisionField precision).1, conv :: rest) := by
  have hconv := h.conv_plain
  have hstop : ∀ c, (conv :: rest).head? = some c → ¬ c.isDigit := by
    rintro c hc
    obtain rfl := Option.some.inj hc
    exact hconv.2.1
  rcases h.precision with rfl | ⟨ds, rfl, hds⟩
  · rcases h.conv with rfl | rfl <;> rfl
  · have hdsHead : ∀ c, ds.head? = some c → c ≠ '*' :=
      fun c hc => isDigit_ne (hds c (List.mem_of_head? hc)) (by decide)
    have hhead : ∀ c, (ds ++ conv :: rest).head? = some c → c ≠ '*' := by
      intro c hc
      cases ds with
      | nil =>
        obtain rfl := Option.some.inj hc
        exact hconv.2.2.2.2.1
      | cons d ds => exact hdsHead c hc
    rw [List.cons_append, precisionField_point hhead, precisionField_point hdsHead,
      takeWhile_append hds hstop, dropWhile_append hds hstop, takeWhile_eq_self hds]

theorem head_width (h : IntSpec text flags width precision conv) (rest : List Char) :
    ∀ c, (width ++ (precision ++ conv :: rest)).head? = some c →
      ¬ isFlag c ∧ c ≠ '%' ∧ c ≠ '*' := by
  intro c hc
  cases hwidth : width with
  | cons d ds =>
    rw [hwidth] at hc
    obtain rfl := Option.some.inj hc
    have hd : d.isDigit := h.digit d (hwidth ▸ List.mem_cons_self)
    have hzero : d ≠ '0' := fun heq => h.lead (by rw [hwidth, heq]; rfl)
    exact ⟨isDigit_not_flag hd hzero, isDigit_ne hd (by decide), isDigit_ne hd (by decide)⟩
  | nil =>
    rw [hwidth, List.nil_append] at hc
    rcases h.precision with rfl | ⟨ds, rfl, _⟩
    · obtain rfl := Option.some.inj hc
      exact ⟨h.conv_plain.1, h.conv_plain.2.2.2.1, h.conv_plain.2.2.2.2.1⟩
    · obtain rfl := Option.some.inj hc
      decide

theorem head_precision (h : IntSpec text flags width precision conv) (rest : List Char) :
    ∀ c, (precision ++ conv :: rest).head? = some c → ¬ c.isDigit := by
  intro c hc
  rcases h.precision with rfl | ⟨ds, rfl, _⟩
  · obtain rfl := Option.some.inj hc
    exact h.conv_plain.2.1
  · obtain rfl := Option.some.inj hc
    decide

theorem conversion_eq (h : IntSpec text flags width precision conv) (rest : List Char) :
    conversion (text ++ rest) = some (.conv (intSpec flags width precision conv), rest) := by
  have hsplit : text ++ rest = flags ++ (width ++ (precision ++ conv :: rest)) := by
    simp [h.split]
  have hhead := h.head_width rest
  have hflags : ∀ c, (width ++ (precision ++ conv :: rest)).head? = some c → ¬ isFlag c :=
    fun c hc => (hhead c hc).1
  have hpercent : (flags ++ (width ++ (precision ++ conv :: rest))).head? ≠ some '%' := by
    intro hp
    cases hf : flags with
    | nil =>
      rw [hf] at hp
      exact (hhead _ hp).2.1 rfl
    | cons c cs =>
      rw [hf] at hp
      have hc := h.flag c (hf ▸ List.mem_cons_self)
      rw [Option.some.inj hp] at hc
      exact absurd hc (by decide)
  have hmodifier : lengthModifier (conv :: rest) = (.none, conv :: rest) := by
    rcases h.conv with rfl | rfl <;> rfl
  rw [hsplit, conversion, if_neg hpercent, takeWhile_append h.flag hflags,
    dropWhile_append h.flag hflags, widthField_of_head fun hc => (hhead _ hc).2.2 rfl,
    takeWhile_append h.digit (h.head_precision rest),
    dropWhile_append h.digit (h.head_precision rest)]
  simp only [h.precision_eq rest, hmodifier, h.conv_plain.2.2.1, if_true]
  rfl

theorem of_conversion {s rest : List Char} {spec : Spec} (hs : s.head? ≠ some '%')
    (h : Printf.conversion s = some (.conv spec, rest)) (hconv : spec.conv = 'd' ∨ spec.conv = 'i')
    (hlength : spec.length = .none) (hwidth : spec.width ≠ .star)
    (hprecision : spec.precision ≠ .star) :
    ∃ text width precision, s = text ++ rest ∧
      IntSpec text spec.flags width precision spec.conv := by
  obtain ⟨c, hspec, hlast⟩ := conversion_eq_some hs h
  obtain rfl := Directive.conv.inj hspec
  dsimp only at hconv hlength hwidth hprecision ⊢
  have hw := widthField_split hwidth
  generalize widthField (s.dropWhile isFlag) = w at hw hlast hlength hprecision
  obtain ⟨precision, hp, hgrammar⟩ := precisionField_split hprecision
  rw [lengthModifier_none hlength] at hlast
  refine ⟨s.takeWhile isFlag ++ ((s.dropWhile isFlag).takeWhile Char.isDigit ++ (precision ++ [c])),
    (s.dropWhile isFlag).takeWhile Char.isDigit, precision, ?_, rfl, ?_, ?_, ?_, hgrammar, hconv⟩
  · rw [hlast] at hp
    rw [hp] at hw
    calc s = s.takeWhile isFlag ++ s.dropWhile isFlag := List.takeWhile_append_dropWhile.symm
      _ = s.takeWhile isFlag ++ ((s.dropWhile isFlag).takeWhile Char.isDigit ++
          (precision ++ c :: rest)) := congrArg _ hw
      _ = _ := by simp only [List.append_assoc, List.singleton_append]
  · exact fun x hx => of_mem_takeWhile hx
  · exact fun x hx => of_mem_takeWhile hx
  · intro hzero
    cases hrest : s.dropWhile isFlag with
    | nil => simp [hrest] at hzero
    | cons x xs =>
      have hx : ¬ isFlag x := head?_dropWhile (s := s) (by rw [hrest]; rfl)
      rw [hrest] at hzero
      by_cases hdigit : x.isDigit
      · rw [List.takeWhile_cons_of_pos hdigit] at hzero
        rw [Option.some.inj hzero] at hx
        exact hx (by decide)
      · rw [List.takeWhile_cons_of_neg hdigit] at hzero
        cases hzero

theorem precision_ne_star (h : IntSpec text flags width precision conv) :
    (precisionField precision).1 ≠ .star := by
  rcases h.precision with rfl | ⟨ds, rfl, hds⟩
  · exact Field.noConfusion
  · rw [precisionField_point fun c hc => isDigit_ne (hds c (List.mem_of_head? hc)) (by decide)]
    exact Field.noConfusion

theorem output_eq (h : IntSpec text flags width precision conv) (hhash : '#' ∉ flags)
    (v : BitVec 32) : (intSpec flags width precision conv).output v =
      some ((intSpec flags width precision conv).decimal v.toInt) := by
  rcases h.conv with rfl | rfl <;>
    simp [Spec.output, intSpec, number_ne_star, h.precision_ne_star, Spec.has, hhash, Spec.signed]

theorem output_hash (h : IntSpec text flags width precision conv) (hhash : '#' ∈ flags)
    (v : BitVec 32) : (intSpec flags width precision conv).output v = none := by
  rcases h.conv with rfl | rfl <;> simp [Spec.output, intSpec, Spec.has, hhash]

end IntSpec

def IntFormat (format before : List Char) (spec : Spec) (after : List Char) : Prop :=
  ∃ pre text post ds es flags width precision conv, format = pre ++ '%' :: (text ++ post) ∧
    Plain pre ds ∧ Plain post es ∧ IntSpec text flags width precision conv ∧
    before = ds.filterMap Directive.text ∧ after = es.filterMap Directive.text ∧
    spec = intSpec flags width precision conv

theorem Plain.text_mem {s : List Char} {ds : List Directive} (h : Plain s ds) :
    ∀ c ∈ ds.filterMap Directive.text, c ∈ s := by
  induction h with
  | nil => exact fun c hc => hc
  | lit _ _ ih =>
    refine List.forall_mem_cons.mpr ⟨List.mem_cons_self, fun c hc => ?_⟩
    exact List.mem_cons_of_mem _ (ih c hc)
  | percent _ ih =>
    refine List.forall_mem_cons.mpr ⟨List.mem_cons_self, fun c hc => ?_⟩
    exact List.mem_cons_of_mem _ (List.mem_cons_of_mem _ (ih c hc))

theorem filterMap_text_lit (s : List Char) :
    (s.map Directive.lit).filterMap Directive.text = s := by
  rw [List.filterMap_map]
  exact List.filterMap_some

theorem IntFormat.of_numbered {pre w post : List Char} (hpre : '%' ∉ pre) (hpost : '%' ∉ post)
    (hw : w = [] ∨ ∃ digits, w = '0' :: digits ∧ ∀ c ∈ digits, c.isDigit) :
    ∃ spec, IntFormat (pre ++ '%' :: (w ++ 'd' :: post)) pre spec post ∧ '#' ∉ spec.flags := by
  have htext := fun s => (filterMap_text_lit s).symm
  have hformat : pre ++ '%' :: (w ++ 'd' :: post) = pre ++ '%' :: ((w ++ ['d']) ++ post) := by simp
  rw [hformat]
  rcases hw with rfl | ⟨digits, rfl, hdigits⟩
  · exact ⟨_, ⟨pre, _, post, _, _, [], [], [], 'd', rfl, .of_not_mem hpre, .of_not_mem hpost,
      ⟨rfl, by simp, by simp, by simp, .inl rfl, .inl rfl⟩, htext pre, htext post, rfl⟩, by decide⟩
  · -- further zeros are flags too
    let zeros := digits.takeWhile (· == '0')
    let width := digits.dropWhile (· == '0')
    have hzero : ∀ c ∈ '0' :: zeros, c = '0' := by
      refine List.forall_mem_cons.mpr ⟨rfl, fun c hc => ?_⟩
      simpa using of_mem_takeWhile hc
    have hsplit : ('0' :: digits) ++ ['d'] = ('0' :: zeros) ++ (width ++ ([] ++ ['d'])) := by
      simp only [zeros, width, List.cons_append, List.nil_append, ← List.append_assoc,
        List.takeWhile_append_dropWhile]
    refine ⟨_, ⟨pre, _, post, _, _, '0' :: zeros, width, [], 'd', rfl, .of_not_mem hpre,
      .of_not_mem hpost, ⟨hsplit, ?_, ?_, ?_, .inl rfl, .inl rfl⟩, htext pre, htext post, rfl⟩, ?_⟩
    · intro c hc
      rw [hzero c hc]
      decide
    · exact fun c hc => hdigits c ((List.dropWhile_sublist _).subset hc)
    · intro hhead
      exact head?_dropWhile hhead (by decide)
    · intro hhash
      exact absurd (hzero _ hhash) (by decide)

namespace IntFormat
variable {format before after : List Char} {spec : Spec}

theorem directives_eq (h : IntFormat format before spec after) :
    ∃ ds es, directives format = some (ds ++ .conv spec :: es) ∧
      (∀ d ∈ ds, d.text ≠ none) ∧ (∀ d ∈ es, d.text ≠ none) ∧
      before = ds.filterMap Directive.text ∧ after = es.filterMap Directive.text := by
  obtain ⟨pre, text, post, ds, es, flags, width, precision, conv, rfl, hpre, hpost, hspec,
    hbefore, hafter, rfl⟩ := h
  refine ⟨ds, es, ?_, hpre.text_ne_none, hpost.text_ne_none, hbefore, hafter⟩
  rw [hpre.directives_append, directives_conversion (hspec.conversion_eq post),
    hpost.directives_eq]
  rfl

theorem of_directives {ds es : List Directive}
    (h : directives format = some (ds ++ .conv spec :: es)) (hds : ∀ d ∈ ds, d.text ≠ none)
    (hes : ∀ d ∈ es, d.text ≠ none) (hconv : spec.conv = 'd' ∨ spec.conv = 'i')
    (hlength : spec.length = .none) (hwidth : spec.width ≠ .star)
    (hprecision : spec.precision ≠ .star) :
    IntFormat format (ds.filterMap Directive.text) spec (es.filterMap Directive.text) := by
  obtain ⟨pre, s, rfl, hpre, hs⟩ := exists_plain h hds
  obtain ⟨c, s', rfl, ⟨_, hspec, _⟩ | ⟨rfl, rest, hread, hrest⟩⟩ := directives_cons hs
  · exact Directive.noConfusion hspec
  · have hhead : s'.head? ≠ some '%' := by
      intro hhead
      rw [List.eq_cons_of_mem_head? hhead, conversion_percent] at hread
      exact Directive.noConfusion (Prod.mk.inj (Option.some.inj hread)).1
    obtain ⟨text, width, precision, rfl, hint⟩ :=
      IntSpec.of_conversion hhead hread hconv hlength hwidth hprecision
    rw [← List.append_nil es] at hrest
    obtain ⟨post, s₂, rfl, hpost, hend⟩ := exists_plain hrest hes
    obtain rfl := directives_nil hend
    rw [hint.conversion_eq, List.append_nil] at hread
    have hsame := Directive.conv.inj (Prod.mk.inj (Option.some.inj hread)).1
    refine ⟨pre, text, post, ds, es, spec.flags, width, precision, spec.conv, ?_, hpre, hpost,
      hint, rfl, rfl, hsame.symm⟩
    rw [List.append_nil]

theorem spec_int (h : IntFormat format before spec after) :
    (spec.conv = 'd' ∨ spec.conv = 'i') ∧ spec.length = .none ∧ spec.width ≠ .star ∧
      spec.precision ≠ .star := by
  obtain ⟨pre, text, post, ds, es, flags, width, precision, conv, -, -, -, hspec, -, -, rfl⟩ := h
  exact ⟨hspec.conv, rfl, number_ne_star width, hspec.precision_ne_star⟩

theorem print_eq (h : IntFormat format before spec after) {out : List Char} {v : BitVec 32}
    (hout : spec.output v = some out) :
    snprintf format v = (some (before ++ (out ++ after))).filter fun s => s.length < 2 ^ 31 := by
  obtain ⟨ds, es, hread, hds, hes, rfl, rfl⟩ := h.directives_eq
  have hend : print es none = some (es.filterMap Directive.text) := by
    simpa [print] using print_plain hes [] none
  simp only [snprintf, hread, Option.bind_some, print_plain hds, print, hout, hend,
    Option.map_some]

theorem snprintf_eq (h : IntFormat format before spec after) (hhash : '#' ∉ spec.flags)
    (v : BitVec 32) : snprintf format v =
      (some (before ++ (spec.decimal v.toInt ++ after))).filter fun s => s.length < 2 ^ 31 := by
  apply h.print_eq
  obtain ⟨pre, text, post, ds, es, flags, width, precision, conv, -, -, -, hspec, -, -, rfl⟩ := h
  exact hspec.output_eq hhash v

theorem snprintf_hash (h : IntFormat format before spec after) (hhash : '#' ∈ spec.flags)
    (v : BitVec 32) : snprintf format v = none := by
  obtain ⟨ds, es, hread, hds, hes, -, -⟩ := h.directives_eq
  obtain ⟨pre, text, post, _, _, flags, width, precision, conv, -, -, -, hspec, -, -, rfl⟩ := h
  have hout : (intSpec flags width precision conv).output v = none := hspec.output_hash hhash v
  simp only [snprintf, hread, Option.bind_some, print_plain hds, print, hout]
  rfl

theorem injective (h : IntFormat format before spec after) (hhash : '#' ∉ spec.flags)
    {v w : BitVec 32} {out : List Char} (hv : snprintf format v = some out)
    (hw : snprintf format w = some out) : v = w := by
  rw [h.snprintf_eq hhash] at hv hw
  have hprintV := Option.mem_some_iff.mp (Option.mem_filter_iff.mp hv).1
  have hprintW := Option.mem_some_iff.mp (Option.mem_filter_iff.mp hw).1
  rw [← hprintW] at hprintV
  have hfields := List.append_cancel_right (List.append_cancel_left hprintV)
  exact BitVec.eq_of_toInt_eq (spec.decimal_injective hfields)

end IntFormat

end Printf
