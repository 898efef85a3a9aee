import XrdBlackhole.Directives
import XrdBlackhole.StubStep
import XrdBlackhole.Metrics

/-!
# The configuration file

`configure` walks over the lines of the file and gives each known keyword to its
handler. The stream which splits the file into lines and words is not modelled. A
handler which runs into undefined behaviour has no result, and so has the file.
-/

namespace XrdBlackhole

structure OssConfig extends Oss where
  readtype : Str := zeros
  deriving DecidableEq

structure Server where
  oss : OssConfig := {}
  fs : BlackholeFS := {}

structure ConfigLine where
  var : CWord
  words : List CWord

/-- The file is not named, does not open, or has these lines and this `LastError`. -/
inductive ConfigFile
  | absent
  | unreadable (errno : ℤ) (configfn : Str)
  | lines (configfn : Str) (ls : List ConfigLine) (retc : ℤ)

inductive ConfigMsg
  | emsg (e : Emsg)
  | syserr (ecode : ℤ) (e : Emsg)
  | said (line : Str)
  deriving DecidableEq

abbrev Handler := List CWord → Server → Option (Bool × Server × List Emsg)

def cfgReadtype (oss : OssConfig) : List CWord → Bool × OssConfig × List Emsg
  | [] => (false, oss, [⟨"blackhole.readtype: missing value".toList, []⟩])
  | val :: _ =>
    if val.1 ≠ zeros then
      (false, oss,
        [⟨"blackhole.readtype: unknown type (only 'zeros' supported):".toList, val.1⟩])
    else (true, { oss with readtype := val.1 }, [])

namespace Server

def writespeedMiBps : Handler := fun words s =>
  let r := cfgWritespeedMiBps s.oss.toOss words
  some (r.1, { s with oss := { s.oss with toOss := r.2.1 } }, r.2.2)

def defaultspath : Handler := fun words s =>
  let r := cfgDefaultspath s.oss.toOss s.fs words
  some (r.1, { oss := { s.oss with toOss := r.2.1 }, fs := r.2.2.1 }, r.2.2.2)

def readtype : Handler := fun words s =>
  let r := cfgReadtype s.oss words
  some (r.1, { s with oss := r.2.1 }, r.2.2)

def seedfile : Handler := fun words s =>
  (cfgSeedfile words s.fs).map fun r => (r.1, { s with fs := r.2.1 }, r.2.2)

end Server

def directives : List (Str × Handler) :=
  [("blackhole.writespeedMiBps".toList, Server.writespeedMiBps),
   ("blackhole.defaultspath".toList, Server.defaultspath),
   ("blackhole.readtype".toList, Server.readtype),
   ("blackhole.seedfile".toList, Server.seedfile)]

structure ConfigState where
  noGo : ℤ := 0
  server : Server
  log : List ConfigMsg := []

namespace ConfigState

def line (c : ConfigState) (l : ConfigLine) : Option ConfigState :=
  match directives.lookup l.var.1 with
  | some parse => (parse l.words c.server).map fun r =>
      { noGo := if r.1 then c.noGo else 1, server := r.2.1, log := c.log ++ r.2.2.map .emsg }
  | none =>
    if "blackhole.".toList.isPrefixOf l.var.1 then
      some { c with log := c.log ++ [.emsg ⟨"Unknown directive (ignored):".toList, l.var.1⟩] }
    else some c

def lines : ConfigState → List ConfigLine → Option ConfigState
  | c, [] => some c
  | c, l :: ls => (c.line l).bind fun c => lines c ls

end ConfigState

def OssConfig.logConfig (oss : OssConfig) : Str :=
  "Configured: writespeedMiBps=".toList ++
    (if oss.writespeedMiBs = 0 then "unlimited".toList else decimal oss.writespeedMiBs.toNat) ++
    " defaultspath=".toList ++
    (if oss.defaultspath = [] then "(none)".toList else oss.defaultspath) ++
    " readtype=".toList ++ oss.readtype

/-- `emsg` is what the logger's `Emsg` returns for an error code. -/
def configure (emsg : ℤ → ℤ) (s : Server) :
    ConfigFile → Option (ℤ × Server × List ConfigMsg)
  | .absent => some (0, s, [.said s.oss.logConfig])
  | .unreadable errno configfn =>
    some (1, s, [.syserr errno ⟨"open config file".toList, configfn⟩])
  | .lines configfn ls retc =>
    (ConfigState.lines { server := s } ls).map fun c =>
      let summary := ConfigMsg.said c.server.oss.logConfig
      if retc ≠ 0 then
        (emsg (-retc), c.server,
          c.log ++ [.syserr (-retc) ⟨"read config file".toList, configfn⟩, summary])
      else (c.noGo, c.server, c.log ++ [summary])

structure Seed where
  path : Str
  size : Word
  readtype : Str

namespace BlackholeFS

def seedEach (fs : BlackholeFS) (seeds : List Seed) : BlackholeFS :=
  seeds.foldl (fun fs s => fs.seed s.path s.size s.readtype) fs

theorem seedEach_append (fs : BlackholeFS) (seeds seeds' : List Seed) :
    fs.seedEach (seeds ++ seeds') = (fs.seedEach seeds).seedEach seeds' :=
  List.foldl_append

end BlackholeFS

def loopNames (path : CWord) : ℕ → ℕ → List Str
  | 0, _ => []
  | n + 1, i =>
    match expand path i with
    | none => []
    | some out => if bufSize ≤ out.length then [] else cString out :: loopNames path n (i + 1)

def SeedDirective.seeds (d : SeedDirective) : List Seed :=
  (if d.count = 1 then [d.path.1] else loopNames d.path d.count.toNat 0).map fun name =>
    ⟨name, d.size, d.readtype⟩

namespace ConfigLine

def seeds (l : ConfigLine) : List Seed :=
  if l.var.1 = "blackhole.defaultspath".toList then
    match l.words with
    | [] => []
    | val :: _ => BlackholeFS.specs.map fun spec => ⟨val.1 ++ spec.1, spec.2, zeros⟩
  else if l.var.1 = "blackhole.seedfile".toList then
    (seedDirective l.words).2.elim [] SeedDirective.seeds
  else []

def speed (l : ConfigLine) : Option Word :=
  if l.var.1 = "blackhole.writespeedMiBps".toList then
    l.words.head?.bind fun val => (writespeed val.1).toOption
  else none

def path (l : ConfigLine) : Option Str :=
  if l.var.1 = "blackhole.defaultspath".toList then l.words.head?.map Subtype.val else none

def verdict (l : ConfigLine) : Option Bool :=
  match directives.lookup l.var.1 with
  | some parse => (parse l.words {}).map Prod.fst
  | none => some true

end ConfigLine

theorem createDefaults_eq_seedEach (fs : BlackholeFS) (path : Str) :
    fs.createDefaults path =
      fs.seedEach (BlackholeFS.specs.map fun spec => ⟨path ++ spec.1, spec.2, zeros⟩) := by
  rw [BlackholeFS.seedEach, List.foldl_map]
  rfl

theorem seedLoop_eq_seedEach {d : SeedDirective} {n i : ℕ} {fs fs' : BlackholeFS} {ok : Bool}
    (h : seedLoop d n i fs = some (ok, fs')) :
    fs' = fs.seedEach ((loopNames d.path n i).map fun name => ⟨name, d.size, d.readtype⟩) := by
  induction n generalizing i fs with
  | zero => exact (Prod.mk.inj (Option.some.inj h)).2.symm
  | succ n ih =>
    rw [seedLoop] at h
    rw [loopNames]
    cases hout : expand d.path i with
    | none =>
      rw [hout] at h
      cases h
    | some out =>
      rw [hout] at h
      dsimp only at h ⊢
      by_cases hlong : bufSize ≤ out.length
      · rw [if_pos hlong] at h ⊢
        exact (Prod.mk.inj (Option.some.inj h)).2.symm
      · rw [if_neg hlong] at h ⊢
        exact ih h

theorem seedLoop_verdict (d : SeedDirective) (n i : ℕ) (fs fs' : BlackholeFS) :
    (seedLoop d n i fs).map Prod.fst = (seedLoop d n i fs').map Prod.fst := by
  induction n generalizing i fs fs' with
  | zero => rfl
  | succ n ih =>
    rw [seedLoop, seedLoop]
    cases expand d.path i with
    | none => rfl
    | some out =>
      dsimp only
      split_ifs
      · rfl
      · exact ih _ _ _

theorem seedAll_eq_seedEach {d : SeedDirective} {fs fs' : BlackholeFS} {ok : Bool}
    (h : seedAll d fs = some (ok, fs')) : fs' = fs.seedEach d.seeds := by
  rw [seedAll] at h
  rw [SeedDirective.seeds]
  by_cases hone : d.count = 1
  · rw [if_pos hone] at h ⊢
    exact (Prod.mk.inj (Option.some.inj h)).2.symm
  · rw [if_neg hone] at h ⊢
    exact seedLoop_eq_seedEach h

theorem seedAll_verdict (d : SeedDirective) (fs fs' : BlackholeFS) :
    (seedAll d fs).map Prod.fst = (seedAll d fs').map Prod.fst := by
  rw [seedAll, seedAll]
  split_ifs
  · rfl
  · exact seedLoop_verdict d _ _ _ _

theorem cfgSeedfile_eq_seedEach {words : List CWord} {fs fs' : BlackholeFS} {ok : Bool}
    {log : List Emsg} (h : cfgSeedfile words fs = some (ok, fs', log)) :
    fs' = fs.seedEach ((seedDirective words).2.elim [] SeedDirective.seeds) := by
  rw [cfgSeedfile] at h
  generalize seedDirective words = r at h ⊢
  rcases r with ⟨said, _ | d⟩
  · exact (Prod.mk.inj (Prod.mk.inj (Option.some.inj h)).2).1.symm
  · obtain ⟨r, hall, hr⟩ := Option.map_eq_some_iff.mp h
    obtain ⟨-, hr⟩ := Prod.mk.inj hr
    rw [← (Prod.mk.inj hr).1]
    exact seedAll_eq_seedEach hall

theorem cfgSeedfile_verdict (words : List CWord) (fs fs' : BlackholeFS) :
    (cfgSeedfile words fs).map Prod.fst = (cfgSeedfile words fs').map Prod.fst := by
  rw [cfgSeedfile, cfgSeedfile]
  rcases seedDirective words with ⟨said, _ | d⟩
  · rfl
  · simp only [Option.map_map]
    exact seedAll_verdict d fs fs'

inductive Selects (var : Str) : Option Handler → Prop
  | writespeedMiBps : var = "blackhole.writespeedMiBps".toList →
      Selects var (some Server.writespeedMiBps)
  | defaultspath : var = "blackhole.defaultspath".toList → Selects var (some Server.defaultspath)
  | readtype : var = "blackhole.readtype".toList → Selects var (some Server.readtype)
  | seedfile : var = "blackhole.seedfile".toList → Selects var (some Server.seedfile)
  | unknown : (∀ d ∈ directives, var ≠ d.1) → Selects var none

theorem selects (var : Str) : Selects var (directives.lookup var) := by
  simp only [directives, List.lookup_cons, List.lookup_nil]
  split
  · next h => exact .writespeedMiBps (eq_of_beq h)
  · next h₁ =>
    split
    · next h => exact .defaultspath (eq_of_beq h)
    · next h₂ =>
      split
      · next h => exact .readtype (eq_of_beq h)
      · next h₃ =>
        split
        · next h => exact .seedfile (eq_of_beq h)
        · next h₄ =>
          refine .unknown fun d hd => ?_
          simp only [directives, List.mem_cons, List.not_mem_nil, or_false] at hd
          rcases hd with rfl | rfl | rfl | rfl
          · exact ne_of_beq_false h₁
          · exact ne_of_beq_false h₂
          · exact ne_of_beq_false h₃
          · exact ne_of_beq_false h₄

end XrdBlackhole
