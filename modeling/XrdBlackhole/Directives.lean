import XrdBlackhole.SeedFile

/-!
# The directives with one value

The handlers of `blackhole.writespeedMiBps` and `blackhole.defaultspath` read the
first word behind the keyword. A rejected value leaves the configuration alone, and
words behind the path are reported and ignored.
-/

namespace XrdBlackhole

structure Oss where
  writespeedMiBs : Word := 0
  defaultspath : Str := []
  deriving DecidableEq

def INT_MAX : ℕ := 2 ^ 31 - 1

/-- `strtoul` is `strtoull` where `unsigned long` has 64 bits. -/
def writespeed (val : Str) : Except Emsg Word :=
  let r := Strtoull.strtoull val
  if r.endp = val ∨ r.endp ≠ [] then
    .error ⟨"blackhole.writespeedMiBps: non-numeric value:".toList, val⟩
  else if r.erange ∨ INT_MAX ≤ r.value.toNat then
    .error ⟨"blackhole.writespeedMiBps: value too large:".toList, val⟩
  else .ok r.value

def cfgWritespeedMiBps (oss : Oss) : List CWord → Bool × Oss × List Emsg
  | [] => (false, oss, [⟨"blackhole.writespeedMiBps: missing value".toList, []⟩])
  | val :: _ =>
    match writespeed val.1 with
    | .error e => (false, oss, [e])
    | .ok value => (true, { oss with writespeedMiBs := value }, [])

def cfgDefaultspath (oss : Oss) (fs : BlackholeFS) :
    List CWord → Bool × Oss × BlackholeFS × List Emsg
  | [] => (false, oss, fs, [⟨"blackhole.defaultspath: missing value".toList, []⟩])
  | val :: rest =>
    (true, { oss with defaultspath := val.1 }, fs.createDefaults val.1,
      if rest = [] then [] else [⟨"blackhole.defaultspath: extra tokens ignored".toList, []⟩])

theorem cfgWritespeedMiBps_rejected {oss : Oss} {words : List CWord}
    (h : (cfgWritespeedMiBps oss words).1 = false) : (cfgWritespeedMiBps oss words).2.1 = oss := by
  cases words with
  | nil => rfl
  | cons val rest =>
    rw [cfgWritespeedMiBps] at h ⊢
    cases hval : writespeed val.1 with
    | error e => rfl
    | ok value =>
      rw [hval] at h
      cases h

end XrdBlackhole
