import XrdBlackhole.Namespace
import XrdBlackhole.Library.Strtoull
import XrdBlackhole.Library.PrintfInt

/-!
# The seedfile directive

`seedDirective` reads the words of a `blackhole.seedfile` line and `seedAll` creates
the stubs, one for a literal path or `count` of them for a format. The words are C
strings. A run which depends on undefined behaviour of `snprintf` has no result.
-/

namespace XrdBlackhole

abbrev CWord := {s : Str // '\x00' ∉ s}

structure Emsg where
  text : Str
  detail : Str := []
  deriving DecidableEq

structure SeedDirective where
  path : CWord
  size : Word
  count : Word := 1
  readtype : Str := zeros

/-- `*endp | 0x20` is compared with the small letters. -/
def suffixFactor (endp : Char) : Option Word :=
  let lower := endp.toNat ||| 0x20
  if lower = 'k'.toNat then some 1024
  else if lower = 'm'.toNat then some (1024 * 1024)
  else if lower = 'g'.toNat then some (1024 * 1024 * 1024)
  else if lower = 't'.toNat then some (1024 * 1024 * 1024 * 1024)
  else none

/-- Only the first character behind the digits is looked at. -/
def seedSize (sizeval : Str) : Except Emsg Word :=
  let r := Strtoull.strtoull sizeval
  if r.endp = sizeval ∨ r.erange then
    .error ⟨"blackhole.seedfile: invalid size:".toList, sizeval⟩
  else
    match r.endp with
    | [] => .ok r.value
    | endp :: rest =>
      match suffixFactor endp with
      | some factor => .ok (r.value * factor)
      | none => .error ⟨"blackhole.seedfile: unknown size suffix:".toList, endp :: rest⟩

def seedOption (d : SeedDirective) (tok : Str) : Except Emsg (SeedDirective × List Emsg) :=
  if "count=".toList.isPrefixOf tok then
    let x := tok.drop 6
    let r := Strtoull.strtoull x
    if r.endp = x ∨ r.endp ≠ [] ∨ r.erange ∨ r.value = 0 then
      .error ⟨"blackhole.seedfile: invalid count=".toList, x⟩
    else .ok ({ d with count := r.value }, [])
  else if "type=".toList.isPrefixOf tok then
    let readtype := tok.drop 5
    if readtype ≠ zeros ∧ readtype ≠ random then
      .error ⟨"blackhole.seedfile: unknown type (zeros|random):".toList, readtype⟩
    else .ok ({ d with readtype := readtype }, [])
  else .ok (d, [⟨"blackhole.seedfile: unknown option (ignored):".toList, tok⟩])

def seedOptions (d : SeedDirective) : List CWord → List Emsg × Option SeedDirective
  | [] => ([], some d)
  | tok :: toks =>
    match seedOption d tok.1 with
    | .error e => ([e], none)
    | .ok (d, log) => ((log ++ (seedOptions d toks).1), (seedOptions d toks).2)

/-- All checks before the first stub is created. -/
def seedDirective : List CWord → List Emsg × Option SeedDirective
  | [] => ([⟨"blackhole.seedfile: missing path".toList, []⟩], none)
  | [_] => ([⟨"blackhole.seedfile: missing size".toList, []⟩], none)
  | path :: sizeval :: toks =>
    match seedSize sizeval.1 with
    | .error e => ([e], none)
    | .ok size =>
      match seedOptions { path := path, size := size } toks with
      | (log, none) => (log, none)
      | (log, some d) =>
        if 1 < d.count.toNat ∧ '%' ∉ d.path.1 then
          (log ++ [⟨"blackhole.seedfile: count>1 requires a printf format specifier in path".toList,
            d.path.1⟩], none)
        else (log, some d)

/-- What `snprintf` makes of the path with `static_cast<int>(i)`. -/
def expand (path : CWord) (i : ℕ) : Option Str := Printf.snprintf path.1 (BitVec.ofNat 32 i)

def bufSize : ℕ := 4096

def seedLoop (d : SeedDirective) : ℕ → ℕ → BlackholeFS → Option (Bool × BlackholeFS)
  | 0, _, fs => some (true, fs)
  | n + 1, i, fs =>
    match expand d.path i with
    | none => none
    | some out =>
      if bufSize ≤ out.length then some (false, fs)
      else seedLoop d n (i + 1) (fs.seed (cString out) d.size d.readtype)

def seedAll (d : SeedDirective) (fs : BlackholeFS) : Option (Bool × BlackholeFS) :=
  if d.count = 1 then some (true, fs.seed d.path.1 d.size d.readtype)
  else seedLoop d d.count.toNat 0 fs

def cfgSeedfile (words : List CWord) (fs : BlackholeFS) :
    Option (Bool × BlackholeFS × List Emsg) :=
  match seedDirective words with
  | (log, none) => some (false, fs, log)
  | (log, some d) =>
    (seedAll d fs).map fun r =>
      (r.1, r.2,
        if r.1 then log else log ++ [⟨"blackhole.seedfile: generated path too long".toList, []⟩])

def behind (key tok : Str) : Option Str :=
  if key.isPrefixOf tok then some (tok.drop key.length) else none

def optionText (key : Str) : List CWord → Option Str
  | [] => none
  | tok :: toks => (optionText key toks).or (behind key tok.1)

/-- What the words `<path> <size> [count=N] [type=T]` ask for: `N` is one and `T` is
`zeros` if they are not written. -/
def asked (path : CWord) (size : Word) (toks : List CWord) : SeedDirective where
  path := path
  size := size
  count := ((optionText "count=".toList toks).map fun n => (Strtoull.strtoull n).value).getD 1
  readtype := (optionText "type=".toList toks).getD zeros

section
variable {d : SeedDirective} {words toks : List CWord}

theorem SeedDirective.count_ne_one (h : 1 < d.count.toNat) : d.count ≠ 1 := by
  intro hone
  rw [hone] at h
  exact absurd h (by decide)

theorem seedOption_asked {d' : SeedDirective} {tok : Str} {log : List Emsg}
    (h : seedOption d tok = .ok (d', log)) :
    d' = { d with
      count := ((behind "count=".toList tok).map fun n => (Strtoull.strtoull n).value).getD d.count
      readtype := (behind "type=".toList tok).getD d.readtype } := by
  unfold seedOption at h
  unfold behind
  dsimp only at h
  by_cases hcount : "count=".toList.isPrefixOf tok
  · have htype : ¬ "type=".toList.isPrefixOf tok := by
      intro htype
      obtain ⟨s, rfl⟩ := List.isPrefixOf_iff_prefix.mp hcount
      exact absurd htype (by simp)
    rw [if_pos hcount] at h
    rw [if_pos hcount, if_neg htype]
    split_ifs at h
    obtain rfl := (Prod.mk.inj (Except.ok.inj h)).1
    rfl
  · rw [if_neg hcount] at h
    rw [if_neg hcount]
    split_ifs at h ⊢ <;> obtain rfl := (Prod.mk.inj (Except.ok.inj h)).1 <;> rfl

theorem seedOptions_asked {d' : SeedDirective} (h : (seedOptions d toks).2 = some d') :
    d' = { d with
      count := ((optionText "count=".toList toks).map
        fun n => (Strtoull.strtoull n).value).getD d.count
      readtype := (optionText "type=".toList toks).getD d.readtype } := by
  induction toks generalizing d with
  | nil =>
    obtain rfl := Option.some.inj h
    rfl
  | cons tok toks ih =>
    rw [seedOptions] at h
    cases hopt : seedOption d tok.1 with
    | error e =>
      rw [hopt] at h
      cases h
    | ok r =>
      rw [hopt] at h
      have hfirst := seedOption_asked hopt
      rw [ih h, hfirst, optionText, optionText]
      cases optionText "count=".toList toks <;> cases optionText "type=".toList toks <;> rfl

theorem asked_eq {path : CWord} {size : Word}
    (h : (seedOptions { path := path, size := size } toks).2 = some d) : d = asked path size toks :=
  seedOptions_asked h

theorem seedDirective_some (h : (seedDirective words).2 = some d) :
    ∃ path sizeval toks size, words = path :: sizeval :: toks ∧ seedSize sizeval.1 = .ok size ∧
      (seedOptions { path := path, size := size } toks).2 = some d ∧
      (1 < d.count.toNat → '%' ∈ d.path.1) := by
  match words, h with
  | path :: sizeval :: toks, h =>
    rw [seedDirective] at h
    cases hsize : seedSize sizeval.1 with
    | error e =>
      rw [hsize] at h
      cases h
    | ok size =>
      rw [hsize] at h
      dsimp only at h
      rcases hopts : seedOptions { path := path, size := size } toks with ⟨log, _ | d'⟩
      · rw [hopts] at h
        cases h
      · rw [hopts] at h
        dsimp only at h
        split_ifs at h with hcheck
        obtain rfl := Option.some.inj h
        refine ⟨path, sizeval, toks, size, rfl, hsize, congrArg Prod.snd hopts, fun hcount => ?_⟩
        by_contra hpercent
        exact hcheck ⟨hcount, hpercent⟩

theorem cfgSeedfile_true {fs fs' : BlackholeFS} {log : List Emsg}
    (h : cfgSeedfile words fs = some (true, fs', log)) :
    ∃ d, (seedDirective words).2 = some d ∧ seedAll d fs = some (true, fs') := by
  unfold cfgSeedfile at h
  split at h
  · cases h
  · next d heq =>
    obtain ⟨r, hall, hr⟩ := Option.map_eq_some_iff.mp h
    refine ⟨d, by rw [heq], ?_⟩
    rw [hall]
    simp only [Prod.mk.injEq] at hr
    rw [← hr.1, ← hr.2.1]

theorem cfgSeedfile_asked {path sizeval : CWord} {fs fs' : BlackholeFS} {log : List Emsg}
    (h : cfgSeedfile (path :: sizeval :: toks) fs = some (true, fs', log)) :
    ∃ size, seedSize sizeval.1 = .ok size ∧
      seedAll (asked path size toks) fs = some (true, fs') := by
  obtain ⟨d, hd, hall⟩ := cfgSeedfile_true h
  obtain ⟨path', sizeval', toks', size, hwords, hsize, hopts, -⟩ := seedDirective_some hd
  obtain ⟨rfl, rfl, rfl⟩ : path = path' ∧ sizeval = sizeval' ∧ toks = toks' := by
    simpa using hwords
  exact ⟨size, hsize, asked_eq hopts ▸ hall⟩

theorem seedLoop_next {n i : ℕ} {fs fs' : BlackholeFS}
    (h : seedLoop d n i fs = some (true, fs')) : fs'.stubs.next = fs.stubs.next + n := by
  induction n generalizing i fs with
  | zero => rw [(Prod.mk.inj (Option.some.inj h)).2, Nat.add_zero]
  | succ n ih =>
    rw [seedLoop] at h
    split at h
    · cases h
    · split_ifs at h
      · cases h
      · rw [ih h, Nat.add_comm n, ← Nat.add_assoc]
        rfl

theorem seedAll_next {fs fs' : BlackholeFS} (h : seedAll d fs = some (true, fs')) :
    fs'.stubs.next = fs.stubs.next + d.count.toNat := by
  unfold seedAll at h
  split_ifs at h with hone
  · rw [← (Prod.mk.inj (Option.some.inj h)).2, hone]
    rfl
  · exact seedLoop_next h

end

end XrdBlackhole
