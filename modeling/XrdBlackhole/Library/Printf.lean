import XrdBlackhole.Library.Digits

/-!
# The C function `snprintf` with one `int` argument

A format is read into directives: characters, `%%`, and conversions with flags,
width, precision and length modifier. The output is `none` where the C standard
leaves the behaviour undefined: a malformed conversion, a conversion of another
type, one more argument than the one given, or a result which no `int` counts.
-/

namespace Printf
open Digits

inductive Field
  | none
  | star
  | num (n : ℕ)
  deriving DecidableEq

inductive Length
  | none
  | hh
  | h
  | other
  deriving DecidableEq

structure Spec where
  flags : List Char
  width : Field
  precision : Field
  length : Length
  conv : Char
  deriving DecidableEq

inductive Directive
  | lit (c : Char)
  | percent
  | conv (s : Spec)
  deriving DecidableEq

def isFlag (c : Char) : Bool := c = '-' ∨ c = '+' ∨ c = ' ' ∨ c = '#' ∨ c = '0'

def convChars : List Char :=
  ['d', 'i', 'o', 'u', 'x', 'X', 'e', 'E', 'f', 'F', 'g', 'G', 'a', 'A', 'c', 's', 'p', 'n']

def number (digits : List Char) : Field :=
  if digits = [] then .none else .num (decimalValue digits)

def widthField : List Char → Field × List Char
  | '*' :: s => (.star, s)
  | s => (number (s.takeWhile Char.isDigit), s.dropWhile Char.isDigit)

def precisionField : List Char → Field × List Char
  | '.' :: '*' :: s => (.star, s)
  | '.' :: s => (.num (decimalValue (s.takeWhile Char.isDigit)), s.dropWhile Char.isDigit)
  | s => (.none, s)

def lengthModifier : List Char → Length × List Char
  | 'h' :: 'h' :: s => (.hh, s)
  | 'h' :: s => (.h, s)
  | 'l' :: 'l' :: s => (.other, s)
  | c :: s => if c ∈ ['l', 'j', 'z', 't', 'L'] then (.other, s) else (.none, c :: s)
  | [] => (.none, [])

def conversion (s : List Char) : Option (Directive × List Char) :=
  if s.head? = some '%' then some (.percent, s.tail)
  else
    let w := widthField (s.dropWhile isFlag)
    let p := precisionField w.2
    let l := lengthModifier p.2
    match l.2 with
    | [] => none
    | c :: rest =>
      if c ∈ convChars then some (.conv ⟨s.takeWhile isFlag, w.1, p.1, l.1, c⟩, rest) else none

/-- Every directive takes a character, so the length of the format is fuel enough. -/
def readDirectives : ℕ → List Char → Option (List Directive)
  | _, [] => some []
  | 0, _ :: _ => none
  | fuel + 1, c :: s =>
    if c = '%' then
      match conversion s with
      | none => none
      | some (d, rest) => (readDirectives fuel rest).map (d :: ·)
    else (readDirectives fuel s).map (.lit c :: ·)

def directives (format : List Char) : Option (List Directive) :=
  readDirectives format.length format

def Spec.has (s : Spec) (flag : Char) : Bool := flag ∈ s.flags

def Spec.minWidth (s : Spec) : ℕ :=
  match s.width with
  | .num n => n
  | _ => 0

def Spec.pad (s : Spec) (sign body : List Char) : List Char :=
  let missing := s.minWidth - (sign.length + body.length)
  if s.has '-' then sign ++ (body ++ List.replicate missing ' ')
  else if s.has '0' ∧ s.precision = .none then sign ++ (List.replicate missing '0' ++ body)
  else List.replicate missing ' ' ++ (sign ++ body)

def Spec.sign (s : Spec) (x : ℤ) : List Char :=
  if x < 0 then ['-'] else if s.has '+' then ['+'] else if s.has ' ' then [' '] else []

def Spec.digits (s : Spec) (base n : ℕ) : List Char :=
  match s.precision with
  | .num p => if p = 0 ∧ n = 0 then [] else List.leftpad p '0' (Nat.toDigits base n)
  | _ => Nat.toDigits base n

def Spec.body (s : Spec) (x : ℤ) : List Char := s.digits 10 x.natAbs

def Spec.decimal (s : Spec) (x : ℤ) : List Char := s.pad (s.sign x) (s.body x)

def Spec.octal (s : Spec) (n : ℕ) : List Char :=
  let body := s.digits 8 n
  s.pad [] (if s.has '#' ∧ body.head? ≠ some '0' then '0' :: body else body)

def Spec.hex (s : Spec) (n : ℕ) : List Char :=
  let body := s.digits 16 n
  s.pad (if s.has '#' ∧ n ≠ 0 then ['0', s.conv] else [])
    (if s.conv = 'X' then body.map Char.toUpper else body)

def Spec.signed (s : Spec) (v : BitVec 32) : Option ℤ :=
  match s.length with
  | .none => some v.toInt
  | .h => some (v.setWidth 16).toInt
  | .hh => some (v.setWidth 8).toInt
  | .other => none

/-- The argument of `%u`, `%hu` and `%hhu`. An `int` is read as an `unsigned` only if
both types have its value. -/
def Spec.unsigned (s : Spec) (v : BitVec 32) : Option ℕ :=
  match s.length with
  | .none => if v.toInt < 0 then none else some v.toNat
  | .h => some (v.setWidth 16).toNat
  | .hh => some (v.setWidth 8).toNat
  | .other => none

/-- The conversions which take the one `int`. The flag `#` is for `o`, `x` and `X`. -/
def Spec.output (s : Spec) (v : BitVec 32) : Option (List Char) :=
  if s.width = .star ∨ s.precision = .star then none
  else if s.conv = 'o' then (s.unsigned v).map s.octal
  else if s.conv = 'x' ∨ s.conv = 'X' then (s.unsigned v).map s.hex
  else if s.has '#' then none
  else if s.conv = 'd' ∨ s.conv = 'i' then (s.signed v).map s.decimal
  else if s.conv = 'u' then (s.unsigned v).map fun n => s.pad [] (s.digits 10 n)
  else if s.conv = 'c' ∧ s.length = .none ∧ s.precision = .none ∧ ¬ s.has '0' then
    some (s.pad [] [Char.ofNat (v.setWidth 8).toNat])
  else none

/-- The argument is gone after the first conversion. -/
def print : List Directive → Option (BitVec 32) → Option (List Char)
  | [], _ => some []
  | .lit c :: ds, arg => (print ds arg).map (c :: ·)
  | .percent :: ds, arg => (print ds arg).map ('%' :: ·)
  | .conv _ :: _, none => none
  | .conv s :: ds, some v =>
    match s.output v with
    | none => none
    | some out => (print ds none).map (out ++ ·)

/-- The whole result, of which `snprintf` stores as much as the buffer holds. -/
def snprintf (format : List Char) (v : BitVec 32) : Option (List Char) :=
  ((directives format).bind fun ds => print ds (some v)).filter fun out => out.length < 2 ^ 31

theorem widthField_length (s : List Char) : (widthField s).2.length ≤ s.length := by
  unfold widthField
  split
  · exact Nat.le_succ _
  · exact (List.dropWhile_sublist _).length_le

theorem precisionField_length (s : List Char) : (precisionField s).2.length ≤ s.length := by
  unfold precisionField
  split
  · exact Nat.le_add_right _ 2
  · exact (List.dropWhile_sublist _).length_le.trans (Nat.le_succ _)
  · exact le_rfl

theorem lengthModifier_length (s : List Char) : (lengthModifier s).2.length ≤ s.length := by
  unfold lengthModifier
  split
  · exact Nat.le_add_right _ 2
  · exact Nat.le_succ _
  · exact Nat.le_add_right _ 2
  · split_ifs
    · exact Nat.le_succ _
    · exact le_rfl
  · exact le_rfl

section
variable {s rest : List Char} {d : Directive}

theorem conversion_percent (s : List Char) : conversion ('%' :: s) = some (.percent, s) := rfl

theorem conversion_eq_some (hs : s.head? ≠ some '%') (h : conversion s = some (d, rest)) :
    ∃ c, d = .conv ⟨s.takeWhile isFlag, (widthField (s.dropWhile isFlag)).1,
        (precisionField (widthField (s.dropWhile isFlag)).2).1,
        (lengthModifier (precisionField (widthField (s.dropWhile isFlag)).2).2).1, c⟩ ∧
      (lengthModifier (precisionField (widthField (s.dropWhile isFlag)).2).2).2 = c :: rest := by
  rw [conversion, if_neg hs] at h
  dsimp only at h
  split at h
  · cases h
  · next c rest' heq =>
    split_ifs at h with hconv
    obtain ⟨rfl, rfl⟩ := Prod.mk.inj (Option.some.inj h)
    exact ⟨c, rfl, heq⟩

theorem conversion_length (h : conversion s = some (d, rest)) : rest.length < s.length := by
  by_cases hs : s.head? = some '%'
  · rw [conversion, if_pos hs] at h
    obtain ⟨rfl, rfl⟩ := Prod.mk.inj (Option.some.inj h)
    rw [List.eq_cons_of_mem_head? hs]
    exact Nat.lt_succ_self _
  · obtain ⟨c, _, hlast⟩ := conversion_eq_some hs h
    have hflags := (List.dropWhile_sublist (l := s) isFlag).length_le
    have hwidth := widthField_length (s.dropWhile isFlag)
    have hprecision := precisionField_length (widthField (s.dropWhile isFlag)).2
    have hmodifier :=
      lengthModifier_length (precisionField (widthField (s.dropWhile isFlag)).2).2
    rw [hlast, List.length_cons] at hmodifier
    omega

theorem readDirectives_fuel (n m : ℕ) (s : List Char) (hn : s.length ≤ n) (hm : s.length ≤ m) :
    readDirectives n s = readDirectives m s := by
  induction n generalizing m s with
  | zero =>
    obtain rfl := List.eq_nil_of_length_eq_zero (Nat.le_zero.mp hn)
    cases m <;> rfl
  | succ n ih =>
    cases s with
    | nil => cases m <;> rfl
    | cons c s =>
      rw [List.length_cons] at hn hm
      obtain ⟨m, rfl⟩ := Nat.exists_eq_add_of_lt (Nat.lt_of_lt_of_le (Nat.succ_pos _) hm)
      rw [Nat.zero_add] at hm ⊢
      simp only [readDirectives]
      split_ifs with hc
      · cases hconv : conversion s with
        | none => rfl
        | some r =>
          have hlen := conversion_length hconv
          dsimp only
          rw [ih m r.2 (by omega) (by omega)]
      · rw [ih m s (by omega) (by omega)]

theorem directives_lit {c : Char} (hc : c ≠ '%') (s : List Char) :
    directives (c :: s) = (directives s).map (.lit c :: ·) := by
  simp only [directives, List.length_cons, readDirectives, if_neg hc]

theorem directives_conversion (h : conversion s = some (d, rest)) :
    directives ('%' :: s) = (directives rest).map (d :: ·) := by
  have hlen := conversion_length h
  simp only [directives, List.length_cons, readDirectives, if_true, h]
  rw [readDirectives_fuel s.length rest.length rest hlen.le le_rfl]

theorem directives_bad (h : conversion s = none) : directives ('%' :: s) = none := by
  simp only [directives, List.length_cons, readDirectives, if_true, h]

theorem directives_step {c : Char} {ds : List Directive} (h : directives (c :: s) = some ds) :
    ∃ d ds', ds = d :: ds' ∧ (c ≠ '%' ∧ d = .lit c ∧ directives s = some ds' ∨
      c = '%' ∧ ∃ rest, conversion s = some (d, rest) ∧ directives rest = some ds') := by
  by_cases hc : c = '%'
  · subst hc
    cases hconv : conversion s with
    | none =>
      rw [directives_bad hconv] at h
      cases h
    | some r =>
      rw [directives_conversion (show _ = some (r.1, r.2) from hconv)] at h
      obtain ⟨ds', hrest, rfl⟩ := Option.map_eq_some_iff.mp h
      exact ⟨r.1, ds', rfl, .inr ⟨rfl, r.2, rfl, hrest⟩⟩
  · rw [directives_lit hc] at h
    obtain ⟨ds', hrest, rfl⟩ := Option.map_eq_some_iff.mp h
    exact ⟨.lit c, ds', rfl, .inl ⟨hc, rfl, hrest⟩⟩

theorem directives_cons {ds : List Directive} (h : directives s = some (d :: ds)) :
    ∃ c s', s = c :: s' ∧ (c ≠ '%' ∧ d = .lit c ∧ directives s' = some ds ∨
      c = '%' ∧ ∃ rest, conversion s' = some (d, rest) ∧ directives rest = some ds) := by
  cases s with
  | nil => cases h
  | cons c s =>
    obtain ⟨d', ds', heq, hread⟩ := directives_step h
    obtain ⟨rfl, rfl⟩ := List.cons.inj heq
    exact ⟨c, s, rfl, hread⟩

theorem directives_nil (h : directives s = some []) : s = [] := by
  cases s with
  | nil => rfl
  | cons c s =>
    obtain ⟨d, ds, heq, _⟩ := directives_step h
    cases heq

end

def Directive.text : Directive → Option Char
  | .lit c => some c
  | .percent => some '%'
  | .conv _ => none

inductive Plain : List Char → List Directive → Prop
  | nil : Plain [] []
  | lit {c : Char} {s : List Char} {ds : List Directive} :
      c ≠ '%' → Plain s ds → Plain (c :: s) (.lit c :: ds)
  | percent {s : List Char} {ds : List Directive} :
      Plain s ds → Plain ('%' :: '%' :: s) (.percent :: ds)

section
variable {s : List Char} {ds es : List Directive}

theorem Plain.of_not_mem (h : '%' ∉ s) : Plain s (s.map .lit) := by
  induction s with
  | nil => exact .nil
  | cons c s ih =>
    rw [List.mem_cons, not_or] at h
    exact .lit (Ne.symm h.1) (ih h.2)

theorem Plain.text_ne_none (h : Plain s ds) : ∀ d ∈ ds, d.text ≠ none := by
  induction h with
  | nil => exact fun d hd => absurd hd List.not_mem_nil
  | lit _ _ ih => exact List.forall_mem_cons.mpr ⟨Option.some_ne_none _, ih⟩
  | percent _ ih => exact List.forall_mem_cons.mpr ⟨Option.some_ne_none _, ih⟩

theorem Plain.directives_append (h : Plain s ds) (rest : List Char) :
    directives (s ++ rest) = (directives rest).map (ds ++ ·) := by
  induction h with
  | nil => simp
  | lit hc _ ih =>
    rw [List.cons_append, directives_lit hc, ih, Option.map_map]
    rfl
  | percent _ ih =>
    rw [List.cons_append, List.cons_append, directives_conversion (conversion_percent _), ih,
      Option.map_map]
    rfl

theorem Plain.directives_eq (h : Plain s ds) : directives s = some ds := by
  have happend := h.directives_append []
  rwa [List.append_nil, show directives [] = some [] from rfl, Option.map_some,
    List.append_nil] at happend

theorem exists_plain (h : directives s = some (ds ++ es)) (hds : ∀ d ∈ ds, d.text ≠ none) :
    ∃ s₁ s₂, s = s₁ ++ s₂ ∧ Plain s₁ ds ∧ directives s₂ = some es := by
  induction ds generalizing s with
  | nil => exact ⟨[], s, rfl, .nil, h⟩
  | cons d ds ih =>
    obtain ⟨hd, htl⟩ := List.forall_mem_cons.mp hds
    obtain ⟨c, s', rfl, ⟨hc, rfl, hrest⟩ | ⟨rfl, rest, hconv, hrest⟩⟩ := directives_cons h
    · obtain ⟨s₁, s₂, rfl, hplain, hes⟩ := ih hrest htl
      exact ⟨c :: s₁, s₂, rfl, .lit hc hplain, hes⟩
    · obtain ⟨s₁, s₂, rfl, hplain, hes⟩ := ih hrest htl
      by_cases hs : s'.head? = some '%'
      · have hs' := List.eq_cons_of_mem_head? hs
        rw [hs', conversion_percent] at hconv
        obtain ⟨rfl, htail⟩ := Prod.mk.inj (Option.some.inj hconv)
        refine ⟨'%' :: '%' :: s₁, s₂, ?_, .percent hplain, hes⟩
        rw [hs', htail]
        rfl
      · obtain ⟨_, rfl, _⟩ := conversion_eq_some hs hconv
        exact absurd rfl hd

theorem print_plain (hds : ∀ d ∈ ds, d.text ≠ none) (es : List Directive)
    (arg : Option (BitVec 32)) :
    print (ds ++ es) arg = (print es arg).map (ds.filterMap Directive.text ++ ·) := by
  induction ds with
  | nil => simp
  | cons d ds ih =>
    obtain ⟨hd, htl⟩ := List.forall_mem_cons.mp hds
    cases d with
    | lit c =>
      rw [List.cons_append, print, ih htl, Option.map_map]
      rfl
    | percent =>
      rw [List.cons_append, print, ih htl, Option.map_map]
      rfl
    | conv s => exact absurd rfl hd

end

end Printf
