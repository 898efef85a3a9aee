import XrdBlackhole.Configure
import XrdBlackhole.System

/-!
# What a configuration file leaves behind

Each directive changes one part of the server, in the order of its own lines. So the
file is a list of seeds, a list of speeds and a list of paths, and the configured
server is the end of a run of seeds.
-/

namespace XrdBlackhole

theorem Selects.verdict {var : Str} {parse : Handler} (h : Selects var (some parse))
    (words : List CWord) (s s' : Server) :
    (parse words s).map Prod.fst = (parse words s').map Prod.fst := by
  cases h with
  | writespeedMiBps _ =>
    cases words with
    | nil => rfl
    | cons val rest =>
      simp only [Server.writespeedMiBps, cfgWritespeedMiBps]
      cases writespeed val.1 <;> rfl
  | defaultspath _ => cases words <;> rfl
  | readtype _ =>
    cases words with
    | nil => rfl
    | cons val rest =>
      simp only [Server.readtype, cfgReadtype]
      split_ifs <;> rfl
  | seedfile _ =>
    simp only [Server.seedfile, Option.map_map]
    exact cfgSeedfile_verdict words s.fs s'.fs

structure HandlerDone (l : ConfigLine) (s s' : Server) : Prop where
  fs : s'.fs = s.fs.seedEach l.seeds
  speed : s'.oss.writespeedMiBs = l.speed.getD s.oss.writespeedMiBs
  path : s'.oss.defaultspath = l.path.getD s.oss.defaultspath
  readtype : s.oss.readtype = zeros → s'.oss.readtype = zeros

section
variable {l : ConfigLine} {s : Server}

theorem HandlerDone.writespeedMiBps (hvar : l.var.1 = "blackhole.writespeedMiBps".toList) :
    HandlerDone l s
      { s with oss := { s.oss with toOss := (cfgWritespeedMiBps s.oss.toOss l.words).2.1 } } := by
  have hseeds : l.seeds = [] := by
    rw [ConfigLine.seeds, hvar, if_neg (by decide), if_neg (by decide)]
  have hpath : l.path = none := by rw [ConfigLine.path, hvar, if_neg (by decide)]
  refine ⟨by rw [hseeds]; rfl, ?_, ?_, id⟩
  · rw [ConfigLine.speed, if_pos hvar]
    cases l.words with
    | nil => rfl
    | cons val rest =>
      simp only [cfgWritespeedMiBps, List.head?_cons, Option.bind_some]
      cases writespeed val.1 <;> rfl
  · rw [hpath]
    cases l.words with
    | nil => rfl
    | cons val rest =>
      simp only [cfgWritespeedMiBps]
      cases writespeed val.1 <;> rfl

theorem HandlerDone.defaultspath (hvar : l.var.1 = "blackhole.defaultspath".toList) :
    HandlerDone l s
      { oss := { s.oss with toOss := (cfgDefaultspath s.oss.toOss s.fs l.words).2.1 }
        fs := (cfgDefaultspath s.oss.toOss s.fs l.words).2.2.1 } := by
  have hspeed : l.speed = none := by rw [ConfigLine.speed, hvar, if_neg (by decide)]
  refine ⟨?_, ?_, ?_, id⟩
  · rw [ConfigLine.seeds, if_pos hvar]
    cases l.words with
    | nil => rfl
    | cons val rest => exact createDefaults_eq_seedEach s.fs val.1
  · rw [hspeed]
    cases l.words <;> rfl
  · rw [ConfigLine.path, if_pos hvar]
    cases l.words <;> rfl

theorem HandlerDone.readtypeLine (hvar : l.var.1 = "blackhole.readtype".toList) :
    HandlerDone l s { s with oss := (cfgReadtype s.oss l.words).2.1 } := by
  have hseeds : l.seeds = [] := by
    rw [ConfigLine.seeds, hvar, if_neg (by decide), if_neg (by decide)]
  have hspeed : l.speed = none := by rw [ConfigLine.speed, hvar, if_neg (by decide)]
  have hpath : l.path = none := by rw [ConfigLine.path, hvar, if_neg (by decide)]
  have hoss : (cfgReadtype s.oss l.words).2.1.toOss = s.oss.toOss ∧
      (s.oss.readtype = zeros → (cfgReadtype s.oss l.words).2.1.readtype = zeros) := by
    cases l.words with
    | nil => exact ⟨rfl, id⟩
    | cons val rest =>
      rw [cfgReadtype]
      split_ifs with hval
      · exact ⟨rfl, id⟩
      · exact ⟨rfl, fun _ => not_not.mp hval⟩
  refine ⟨by rw [hseeds]; rfl, ?_, ?_, hoss.2⟩
  · rw [hspeed]
    exact congrArg Oss.writespeedMiBs hoss.1
  · rw [hpath]
    exact congrArg Oss.defaultspath hoss.1

theorem HandlerDone.seedfile (hvar : l.var.1 = "blackhole.seedfile".toList) {fs' : BlackholeFS}
    {ok : Bool} {log : List Emsg} (h : cfgSeedfile l.words s.fs = some (ok, fs', log)) :
    HandlerDone l s { s with fs := fs' } := by
  refine ⟨?_, ?_, ?_, id⟩
  · rw [ConfigLine.seeds, hvar, if_neg (by decide), if_pos rfl]
    exact cfgSeedfile_eq_seedEach h
  · rw [ConfigLine.speed, hvar, if_neg (by decide)]
    rfl
  · rw [ConfigLine.path, hvar, if_neg (by decide)]
    rfl

theorem HandlerDone.unknown (hvar : ∀ d ∈ directives, l.var.1 ≠ d.1) : HandlerDone l s s := by
  simp only [directives, List.forall_mem_cons] at hvar
  obtain ⟨hspeed, hpath, -, hseeds, -⟩ := hvar
  refine ⟨?_, ?_, ?_, id⟩
  · rw [ConfigLine.seeds, if_neg hpath, if_neg hseeds]
    rfl
  · rw [ConfigLine.speed, if_neg hspeed]
    rfl
  · rw [ConfigLine.path, if_neg hpath]
    rfl

theorem Selects.done {parse : Handler} (h : Selects l.var.1 (some parse)) {ok : Bool}
    {s' : Server} {log : List Emsg} (hparse : parse l.words s = some (ok, s', log)) :
    HandlerDone l s s' := by
  cases h with
  | writespeedMiBps hvar =>
    obtain ⟨-, hs⟩ := Prod.mk.inj (Option.some.inj hparse)
    exact (Prod.mk.inj hs).1 ▸ .writespeedMiBps hvar
  | defaultspath hvar =>
    obtain ⟨-, hs⟩ := Prod.mk.inj (Option.some.inj hparse)
    exact (Prod.mk.inj hs).1 ▸ .defaultspath hvar
  | readtype hvar =>
    obtain ⟨-, hs⟩ := Prod.mk.inj (Option.some.inj hparse)
    exact (Prod.mk.inj hs).1 ▸ .readtypeLine hvar
  | seedfile hvar =>
    obtain ⟨⟨ok', fs', log'⟩, hcfg, hr⟩ := Option.map_eq_some_iff.mp hparse
    obtain ⟨-, hs⟩ := Prod.mk.inj hr
    exact (Prod.mk.inj hs).1 ▸ .seedfile hvar hcfg

end

section
variable {l : ConfigLine} {parse : Handler}

theorem ConfigLine.verdict_some (h : directives.lookup l.var.1 = some parse) (s : Server) :
    l.verdict = (parse l.words s).map Prod.fst := by
  have hsel := selects l.var.1
  rw [h] at hsel
  simp only [ConfigLine.verdict, h]
  exact hsel.verdict l.words {} s

theorem ConfigLine.verdict_none (h : directives.lookup l.var.1 = none) :
    l.verdict = some true := by
  simp only [ConfigLine.verdict, h]

theorem ConfigState.line_some (h : directives.lookup l.var.1 = some parse) (c : ConfigState) :
    c.line l = (parse l.words c.server).map fun r =>
      { noGo := if r.1 then c.noGo else 1, server := r.2.1, log := c.log ++ r.2.2.map .emsg } := by
  simp only [ConfigState.line, h]

theorem ConfigState.line_none (h : directives.lookup l.var.1 = none) (c : ConfigState) :
    ∃ log, c.line l = some { c with log := log } := by
  simp only [ConfigState.line, h]
  split_ifs
  · exact ⟨_, rfl⟩
  · exact ⟨c.log, rfl⟩

theorem ConfigState.line_none_iff (c : ConfigState) (l : ConfigLine) :
    c.line l = none ↔ l.verdict = none := by
  cases hrow : directives.lookup l.var.1 with
  | none =>
    obtain ⟨log, hline⟩ := ConfigState.line_none hrow c
    simp [hline, ConfigLine.verdict_none hrow]
  | some parse =>
    rw [ConfigState.line_some hrow, ConfigLine.verdict_some hrow c.server,
      Option.map_eq_none_iff, Option.map_eq_none_iff]

theorem ConfigState.line_done {c c' : ConfigState} (h : c.line l = some c') :
    HandlerDone l c.server c'.server ∧
      c'.noGo = if l.verdict = some true then c.noGo else 1 := by
  have hsel := selects l.var.1
  cases hrow : directives.lookup l.var.1 with
  | none =>
    rw [hrow] at hsel
    obtain ⟨log, hline⟩ := ConfigState.line_none hrow c
    rw [hline] at h
    obtain rfl := Option.some.inj h
    rw [ConfigLine.verdict_none hrow]
    cases hsel with
    | unknown hvar => exact ⟨.unknown hvar, rfl⟩
  | some parse =>
    rw [hrow] at hsel
    rw [ConfigState.line_some hrow] at h
    obtain ⟨⟨ok, s', log⟩, hparse, rfl⟩ := Option.map_eq_some_iff.mp h
    rw [ConfigLine.verdict_some hrow c.server, hparse]
    refine ⟨hsel.done hparse, ?_⟩
    cases ok <;> rfl

end

structure Configured (ls : List ConfigLine) (s s' : Server) : Prop where
  fs : s'.fs = s.fs.seedEach (ls.flatMap ConfigLine.seeds)
  speed : s'.oss.writespeedMiBs =
    (ls.filterMap ConfigLine.speed).getLast?.getD s.oss.writespeedMiBs
  path : s'.oss.defaultspath = (ls.filterMap ConfigLine.path).getLast?.getD s.oss.defaultspath
  readtype : s.oss.readtype = zeros → s'.oss.readtype = zeros

theorem getLast?_getD_filterMap_cons {α β : Type*} (f : α → Option β) (a : α) (as : List α)
    (b : β) : ((a :: as).filterMap f).getLast?.getD b =
      (as.filterMap f).getLast?.getD ((f a).getD b) := by
  rw [List.filterMap_cons]
  cases f a with
  | none => rfl
  | some b' => cases as.filterMap f <;> simp [List.getLast?_cons]

theorem Configured.cons {l : ConfigLine} {ls : List ConfigLine} {s s' s'' : Server}
    (h : HandlerDone l s s') (hs : Configured ls s' s'') : Configured (l :: ls) s s'' := by
  refine ⟨?_, ?_, ?_, fun hz => hs.readtype (h.readtype hz)⟩
  · rw [hs.fs, h.fs, List.flatMap_cons, BlackholeFS.seedEach_append]
  · rw [hs.speed, h.speed, getLast?_getD_filterMap_cons]
  · rw [hs.path, h.path, getLast?_getD_filterMap_cons]

theorem ConfigState.lines_none_iff (c : ConfigState) (ls : List ConfigLine) :
    c.lines ls = none ↔ ∃ l ∈ ls, l.verdict = none := by
  induction ls generalizing c with
  | nil => simp [ConfigState.lines]
  | cons l ls ih =>
    rw [ConfigState.lines, List.exists_mem_cons_iff, ← c.line_none_iff l]
    cases c.line l with
    | none => simp
    | some c' => simp [ih]

theorem ConfigState.lines_done {c c' : ConfigState} {ls : List ConfigLine}
    (h : c.lines ls = some c') : Configured ls c.server c'.server ∧
      c'.noGo = if ∀ l ∈ ls, l.verdict = some true then c.noGo else 1 := by
  induction ls generalizing c with
  | nil =>
    obtain rfl := Option.some.inj h
    exact ⟨⟨rfl, rfl, rfl, id⟩, by simp⟩
  | cons l ls ih =>
    obtain ⟨c₁, hline, hrest⟩ := Option.bind_eq_some_iff.mp h
    obtain ⟨hdone, hgo⟩ := line_done hline
    obtain ⟨hdone', hgo'⟩ := ih hrest
    refine ⟨.cons hdone hdone', ?_⟩
    rw [hgo', hgo]
    simp only [List.forall_mem_cons]
    split_ifs <;> tauto

/-- Whatever the server was before, a file is defined unless one of its lines is not,
and then gives its own parts: all seeds in order, the last accepted speed, the last
path. It is accepted exactly when it was read and each known line was accepted by
itself. -/
theorem configure_result (emsg : ℤ → ℤ) (hemsg : ∀ e, e ≠ 0 → emsg e ≠ 0) (s : Server)
    (configfn : Str) (ls : List ConfigLine) (retc : ℤ) :
    (configure emsg s (.lines configfn ls retc) = none ↔ ∃ l ∈ ls, l.verdict = none) ∧
      ∀ rc s' log, configure emsg s (.lines configfn ls retc) = some (rc, s', log) →
        Configured ls s s' ∧ (rc = 0 ↔ retc = 0 ∧ ∀ l ∈ ls, l.verdict = some true) := by
  refine ⟨?_, fun rc s' log h => ?_⟩
  · rw [configure, Option.map_eq_none_iff, ConfigState.lines_none_iff]
  · obtain ⟨c, hlines, hc⟩ := Option.map_eq_some_iff.mp h
    obtain ⟨hdone, hgo⟩ := ConfigState.lines_done hlines
    by_cases hretc : retc = 0
    · rw [if_neg (not_not.mpr hretc)] at hc
      cases hc
      refine ⟨hdone, ?_⟩
      rw [hgo]
      split_ifs with hall
      · exact iff_of_true rfl ⟨hretc, hall⟩
      · exact iff_of_false one_ne_zero fun h => hall h.2
    · rw [if_pos hretc] at hc
      cases hc
      exact ⟨hdone, iff_of_false (hemsg _ (neg_ne_zero.mpr hretc)) fun h => hretc h.1⟩

def speedAndSeed : List ConfigLine :=
  [⟨⟨"blackhole.writespeedMiBps".toList, by decide⟩, [⟨"80".toList, by decide⟩]⟩,
   ⟨⟨"blackhole.seedfile".toList, by decide⟩,
     [⟨"/data".toList, by decide⟩, ⟨"64".toList, by decide⟩]⟩]

theorem configure_result_accepted :
    ∃ s' log, configure id {} (.lines "cfg".toList speedAndSeed 0) = some (0, s', log) ∧
      Configured speedAndSeed {} s' :=
  ⟨_, _, rfl, ((configure_result id (fun _ h => h) {} "cfg".toList speedAndSeed 0).2 0 _ _ rfl).1⟩

namespace BlackholeFS

/-- A seed of the empty namespace takes the next cell, whether its path is free or
not. So the first seed of a path keeps it, and a stub's cell is its place. -/
structure SeededFrom (seeds : List Seed) (fs : BlackholeFS) : Prop where
  files : ∀ p : Str, fs.files[p]? = seeds.findIdx? fun s => s.path = p
  stubs : ∀ k (hk : k < seeds.length), fs.stubs.get k =
    .seeded seeds[k].size seeds[k].readtype (BitVec.ofNat 64 (k + 1))
  next : fs.stubs.next = seeds.length
  fdLast : fs.fdLast = BitVec.ofNat 64 seeds.length

theorem SeededFrom.nil : SeededFrom [] {} :=
  ⟨fun p => by simp, fun k hk => absurd hk (Nat.not_lt_zero k), rfl, rfl⟩

theorem SeededFrom.concat {seeds : List Seed} {fs : BlackholeFS} (h : SeededFrom seeds fs)
    (s : Seed) : SeededFrom (seeds ++ [s]) (fs.seed s.path s.size s.readtype) := by
  have hfd : fs.fdLast + 1 = BitVec.ofNat 64 (seeds.length + 1) := by
    rw [h.fdLast, BitVec.ofNat_add]
    rfl
  refine ⟨fun p => ?_, fun k hk => ?_, ?_, ?_⟩
  · rw [seed_files, h.files, h.files, h.next, List.findIdx?_append]
    by_cases hp : p = s.path
    · subst hp
      cases seeds.findIdx? fun t => t.path = s.path <;> simp
    · cases seeds.findIdx? fun t => t.path = p <;> simp [hp, Ne.symm hp]
  · rw [List.length_append, List.length_singleton] at hk
    rcases Nat.lt_succ_iff_lt_or_eq.mp hk with hlt | rfl
    · have hget : (fs.seed s.path s.size s.readtype).stubs.get k = fs.stubs.get k :=
        fs.stubs.alloc_get_of_lt _ (by rw [h.next]; exact hlt)
      rw [hget, h.stubs k hlt, List.getElem_append_left hlt]
    · have hget : (fs.seed s.path s.size s.readtype).stubs.get seeds.length =
          .seeded s.size s.readtype (fs.fdLast + 1) := by
        rw [← h.next]
        exact fs.stubs.alloc_get_next _
      rw [hget, hfd, List.getElem_concat_length rfl]
  · rw [List.length_append, ← h.next]
    rfl
  · rw [List.length_append, List.length_singleton, ← hfd]
    rfl

theorem seedEach_seededFrom (seeds : List Seed) :
    SeededFrom seeds (({} : BlackholeFS).seedEach seeds) := by
  induction seeds using List.reverseRecOn with
  | nil => exact .nil
  | append_singleton seeds s ih =>
    rw [seedEach_append]
    exact ih.concat s

theorem exec_seeds (w : World) (seeds : List Seed) :
    World.machine.exec w (seeds.map fun s => .ns (.seed s.path s.size s.readtype)) =
      { w with fs := w.fs.seedEach seeds } := by
  induction seeds generalizing w with
  | nil => rfl
  | cons s seeds ih =>
    rw [List.map_cons, Machine.exec, ih]
    rfl

end BlackholeFS

/-- A freshly configured server has one stub for each seed of the file, in order. A
path names the stub of its first seed, whose inode is its place in the file. Whatever
happens to the server later is the rest of a run which starts in the empty world and
makes the seeds first. -/
theorem configured_namespace (emsg : ℤ → ℤ) (configfn : Str) (ls : List ConfigLine) (retc : ℤ)
    {rc : ℤ} {s : Server} {log : List ConfigMsg}
    (h : configure emsg {} (.lines configfn ls retc) = some (rc, s, log)) :
    s.fs.SeededFrom (ls.flatMap ConfigLine.seeds) ∧
      ∀ cs, World.machine.exec { fs := s.fs } cs = World.machine.exec {}
        ((ls.flatMap ConfigLine.seeds).map (fun t => .ns (.seed t.path t.size t.readtype)) ++
          cs) := by
  obtain ⟨c, hlines, hc⟩ := Option.map_eq_some_iff.mp h
  have hs : c.server = s := by
    split_ifs at hc <;> exact (Prod.mk.inj (Prod.mk.inj hc).2).1
  have hfs := (ConfigState.lines_done hlines).1.fs
  rw [hs] at hfs
  change s.fs = ({} : BlackholeFS).seedEach (ls.flatMap ConfigLine.seeds) at hfs
  refine ⟨by rw [hfs]; exact BlackholeFS.seedEach_seededFrom _, fun cs => ?_⟩
  rw [Machine.exec_append, BlackholeFS.exec_seeds, hfs]

def repeatedSeed : List ConfigLine :=
  [⟨⟨"blackhole.seedfile".toList, by decide⟩,
     [⟨"/data".toList, by decide⟩, ⟨"64".toList, by decide⟩]⟩,
   ⟨⟨"blackhole.seedfile".toList, by decide⟩,
     [⟨"/log_%x".toList, by decide⟩, ⟨"8".toList, by decide⟩, ⟨"count=02".toList, by decide⟩]⟩,
   ⟨⟨"blackhole.seedfile".toList, by decide⟩,
     [⟨"/data".toList, by decide⟩, ⟨"32".toList, by decide⟩]⟩]

theorem configured_namespace_repeated :
    ∃ s log, configure id {} (.lines "cfg".toList repeatedSeed 0) = some (0, s, log) ∧
      s.fs.SeededFrom [⟨"/data".toList, 64, zeros⟩, ⟨"/log_0".toList, 8, zeros⟩,
        ⟨"/log_1".toList, 8, zeros⟩, ⟨"/data".toList, 32, zeros⟩] ∧
      s.fs.getStub "/data".toList = some 0 ∧ s.fs.getStub "/log_1".toList = some 2 ∧
      ∀ p, s.fs.getStub p ≠ some 3 := by
  have hrc : (configure id {} (.lines "cfg".toList repeatedSeed 0)).map Prod.fst = some 0 := by
    decide
  obtain ⟨⟨rc, s, log⟩, hrun, rfl⟩ := Option.map_eq_some_iff.mp hrc
  have hseeded := (configured_namespace id "cfg".toList repeatedSeed 0 hrun).1
  have hseeds : repeatedSeed.flatMap ConfigLine.seeds = [⟨"/data".toList, 64, zeros⟩,
      ⟨"/log_0".toList, 8, zeros⟩, ⟨"/log_1".toList, 8, zeros⟩, ⟨"/data".toList, 32, zeros⟩] := rfl
  rw [hseeds] at hseeded
  refine ⟨s, log, hrun, hseeded, hseeded.files _, hseeded.files _, fun p hp => ?_⟩
  have hfirst := List.findIdx?_eq_some_iff_getElem.mp ((hseeded.files p).symm.trans hp)
  obtain ⟨_, hpath, hbefore⟩ := hfirst
  exact hbefore 0 (by decide) hpath

end XrdBlackhole
