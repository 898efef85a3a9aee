import XrdBlackhole.Library.Digits

/-!
# The text exposition format

A document is a list of metric families. Each has one `HELP` and one `TYPE` line,
followed by its samples. The reader refuses a document in which a family is announced
twice, a sample stands outside its family or a set of labels has two samples.
-/

namespace Exposition
open Digits

structure Sample where
  labels : List Char
  value : List Char
  deriving DecidableEq

structure Family where
  name : List Char
  help : List Char
  kind : List Char
  samples : List Sample
  deriving DecidableEq

def helpMark : List Char := "# HELP ".toList
def typeMark : List Char := "# TYPE ".toList

def Sample.line (name : List Char) (s : Sample) : List Char :=
  name ++ (if s.labels = [] then [] else '\x7b' :: s.labels ++ ['\x7d']) ++ ' ' :: s.value

def Family.lines (f : Family) : List (List Char) :=
  (helpMark ++ f.name ++ ' ' :: f.help) :: (typeMark ++ f.name ++ ' ' :: f.kind) ::
    f.samples.map (Sample.line f.name)

def Family.text (f : Family) : List Char := f.lines.flatMap (· ++ ['\n'])

def print (fs : List Family) : List Char := fs.flatMap Family.text

def splitLines : List Char → List (List Char) × List Char
  | [] => ([], [])
  | c :: s =>
    let r := splitLines s
    if c = '\n' then ([] :: r.1, r.2)
    else
      match r.1 with
      | [] => ([], c :: r.2)
      | l :: ls => ((c :: l) :: ls, r.2)

def firstWord (s : List Char) : List Char × List Char :=
  (s.takeWhile (· ≠ ' '), (s.dropWhile (· ≠ ' ')).drop 1)

def isName (c : Char) : Bool := c ≠ ' ' ∧ c ≠ '\x7b'

def readSample (line : List Char) : Option (List Char × Sample) :=
  let name := line.takeWhile isName
  match line.dropWhile isName with
  | ' ' :: value => some (name, ⟨[], value⟩)
  | '\x7b' :: rest =>
    match rest.dropWhile (· ≠ '\x7d') with
    | _ :: ' ' :: value => some (name, ⟨rest.takeWhile (· ≠ '\x7d'), value⟩)
    | _ => none
  | _ => none

def feed (fs : List Family) (line : List Char) : Option (List Family) :=
  if helpMark.isPrefixOf line then
    let w := firstWord (line.drop helpMark.length)
    if w.1 ∈ fs.map Family.name then none else some (⟨w.1, w.2, [], []⟩ :: fs)
  else
    match fs with
    | [] => none
    | f :: fs =>
      if typeMark.isPrefixOf line then
        let w := firstWord (line.drop typeMark.length)
        if w.1 = f.name ∧ f.kind = [] ∧ f.samples = [] then some ({ f with kind := w.2 } :: fs)
        else none
      else
        (readSample line).bind fun s =>
          if s.1 = f.name ∧ f.kind ≠ [] ∧ s.2.labels ∉ f.samples.map Sample.labels then
            some ({ f with samples := f.samples ++ [s.2] } :: fs)
          else none

def read (text : List Char) : Option (List Family) :=
  let r := splitLines text
  if r.2 = [] then (r.1.foldlM feed []).map List.reverse else none

structure Sample.Plain (s : Sample) : Prop where
  labels : '\n' ∉ s.labels ∧ '\x7d' ∉ s.labels
  value : '\n' ∉ s.value

structure Family.Plain (f : Family) : Prop where
  name : '\n' ∉ f.name ∧ ∀ c ∈ f.name, isName c
  first : f.name.head? ≠ some '#'
  nonempty : f.name ≠ []
  help : '\n' ∉ f.help
  kind : f.kind ≠ [] ∧ '\n' ∉ f.kind
  samples : ∀ s ∈ f.samples, s.Plain
  distinct : (f.samples.map Sample.labels).Nodup

theorem splitLines_append {l : List Char} (hl : '\n' ∉ l) (s : List Char) :
    splitLines (l ++ '\n' :: s) = (l :: (splitLines s).1, (splitLines s).2) := by
  induction l with
  | nil => simp [splitLines]
  | cons c l ih =>
    rw [List.mem_cons, not_or] at hl
    obtain ⟨hc, hl⟩ := hl
    rw [List.cons_append, splitLines, ih hl]
    simp [Ne.symm hc]

theorem splitLines_flatMap {ls : List (List Char)} (hls : ∀ l ∈ ls, '\n' ∉ l) :
    splitLines (ls.flatMap (· ++ ['\n'])) = (ls, []) := by
  induction ls with
  | nil => rfl
  | cons l ls ih =>
    rw [List.flatMap_cons, List.append_assoc, List.singleton_append,
      splitLines_append (hls l List.mem_cons_self),
      ih fun l' hl' => hls l' (List.mem_cons_of_mem l hl')]

theorem firstWord_append {w : List Char} (hw : ' ' ∉ w) (s : List Char) :
    firstWord (w ++ ' ' :: s) = (w, s) := by
  have hword : ∀ c ∈ w, decide (c ≠ ' ') := by
    intro c hc
    exact decide_eq_true fun heq => hw (heq ▸ hc)
  have hhead : ∀ c, (' ' :: s).head? = some c → ¬ decide (c ≠ ' ') = true := by
    intro c hc
    simp [← Option.some.inj hc]
  rw [firstWord, takeWhile_append hword hhead, dropWhile_append hword hhead]
  rfl

theorem readSample_line {name : List Char} (hname : ∀ c ∈ name, isName c) {s : Sample}
    (hs : s.Plain) : readSample (s.line name) = some (name, s) := by
  obtain ⟨labels, value⟩ := s
  by_cases hlabels : labels = []
  · have hhead : ∀ c, (' ' :: value).head? = some c → ¬ isName c = true := by
      intro c hc
      simp [← Option.some.inj hc, isName]
    simp only [Sample.line, hlabels, if_true, List.append_nil, readSample,
      takeWhile_append hname hhead, dropWhile_append hname hhead]
  · have hhead : ∀ c, ('\x7b' :: labels ++ '\x7d' :: ' ' :: value).head? = some c →
        ¬ isName c = true := by
      intro c hc
      simp [← Option.some.inj hc, isName]
    have hline : Sample.line name ⟨labels, value⟩ =
        name ++ ('\x7b' :: labels ++ '\x7d' :: ' ' :: value) := by
      simp [Sample.line, hlabels]
    have hword : ∀ c ∈ labels, decide (c ≠ '\x7d') := by
      intro c hc
      exact decide_eq_true fun heq => hs.labels.2 (heq ▸ hc)
    have hend : ∀ c, ('\x7d' :: ' ' :: value).head? = some c → ¬ decide (c ≠ '\x7d') = true := by
      intro c hc
      simp [← Option.some.inj hc]
    rw [hline, readSample, takeWhile_append hname hhead, dropWhile_append hname hhead,
      List.cons_append]
    simp only [takeWhile_append hword hend, dropWhile_append hword hend]

section
variable {f : Family} {fs : List Family}

theorem Family.Plain.blank (hf : f.Plain) : ' ' ∉ f.name :=
  fun h => absurd (hf.name.2 ' ' h) (by decide)

theorem feed_help (hf : f.Plain) (hfresh : f.name ∉ fs.map Family.name) :
    feed fs (helpMark ++ f.name ++ ' ' :: f.help) = some (⟨f.name, f.help, [], []⟩ :: fs) := by
  have hmark : helpMark.isPrefixOf (helpMark ++ f.name ++ ' ' :: f.help) := by simp
  have hrest : (helpMark ++ f.name ++ ' ' :: f.help).drop helpMark.length =
      f.name ++ ' ' :: f.help := by simp
  simp only [feed, hmark, if_true, hrest, firstWord_append hf.blank, hfresh, if_false]

theorem feed_type (hf : f.Plain) :
    feed (⟨f.name, f.help, [], []⟩ :: fs) (typeMark ++ f.name ++ ' ' :: f.kind) =
      some (⟨f.name, f.help, f.kind, []⟩ :: fs) := by
  have hhelp : helpMark.isPrefixOf (typeMark ++ f.name ++ ' ' :: f.kind) = false := rfl
  have hmark : typeMark.isPrefixOf (typeMark ++ f.name ++ ' ' :: f.kind) := by simp
  have hrest : (typeMark ++ f.name ++ ' ' :: f.kind).drop typeMark.length =
      f.name ++ ' ' :: f.kind := by simp
  simp only [feed, hhelp, Bool.false_eq_true, if_false, hmark, if_true, hrest,
    firstWord_append hf.blank, and_self]

theorem feed_sample (hf : f.Plain) {s : Sample} (hs : s.Plain) {seen : List Sample}
    (hnew : s.labels ∉ seen.map Sample.labels) :
    feed ({ f with samples := seen } :: fs) (s.line f.name) =
      some ({ f with samples := seen ++ [s] } :: fs) := by
  have hcomment : ∀ mark : List Char, mark.head? = some '#' →
      mark.isPrefixOf (s.line f.name) = false := by
    intro mark hmark
    obtain ⟨c, name, hname⟩ := List.exists_cons_of_ne_nil hf.nonempty
    obtain ⟨rest, rfl⟩ := List.head?_eq_some_iff.mp hmark
    have hc : c ≠ '#' := fun h => hf.first (by rw [hname, h]; rfl)
    simp [Sample.line, hname, List.isPrefixOf_cons_cons, Ne.symm hc]
  simp only [feed, hcomment helpMark rfl, hcomment typeMark rfl, Bool.false_eq_true, if_false,
    readSample_line hf.name.2 hs, Option.bind_some, ne_eq, hf.kind.1, not_false_eq_true, hnew,
    and_self, if_true]

theorem foldlM_samples (hf : f.Plain) {ss seen : List Sample} (hss : ∀ s ∈ ss, s.Plain)
    (hnew : ((seen ++ ss).map Sample.labels).Nodup) :
    (ss.map (Sample.line f.name)).foldlM feed ({ f with samples := seen } :: fs) =
      some ({ f with samples := seen ++ ss } :: fs) := by
  induction ss generalizing seen with
  | nil => rw [List.append_nil]; rfl
  | cons s ss ih =>
    have hsplit : seen ++ s :: ss = (seen ++ [s]) ++ ss := by simp
    have hfirst : s.labels ∉ seen.map Sample.labels := by
      rw [List.map_append, List.map_cons] at hnew
      exact fun h => (List.nodup_append.mp hnew).2.2 _ h _ List.mem_cons_self rfl
    rw [hsplit] at hnew ⊢
    rw [List.map_cons, List.foldlM_cons, feed_sample hf (hss s List.mem_cons_self) hfirst]
    exact ih (fun s' hs' => hss s' (List.mem_cons_of_mem s hs')) hnew

theorem foldlM_lines (hf : f.Plain) (hfresh : f.name ∉ fs.map Family.name) :
    f.lines.foldlM feed fs = some (f :: fs) := by
  rw [Family.lines, List.foldlM_cons, feed_help hf hfresh]
  change (_ :: _).foldlM feed _ = _
  rw [List.foldlM_cons, feed_type hf]
  exact foldlM_samples hf hf.samples (show (([] ++ f.samples).map Sample.labels).Nodup from
    hf.distinct)

end

theorem Family.Plain.lines {f : Family} (hf : f.Plain) : ∀ l ∈ f.lines, '\n' ∉ l := by
  have hmarks : '\n' ∉ helpMark ∧ '\n' ∉ typeMark := by decide
  intro l hl
  rw [Family.lines, List.mem_cons, List.mem_cons, List.mem_map] at hl
  rcases hl with rfl | rfl | ⟨s, hs, rfl⟩
  · simp [hmarks.1, hf.name.1, hf.help]
  · simp [hmarks.2, hf.name.1, hf.kind.2]
  · have hplain := hf.samples s hs
    rw [Sample.line]
    split_ifs <;> simp [hf.name.1, hplain.labels.1, hplain.value]

theorem foldlM_families {fs seen : List Family} (hfs : ∀ f ∈ fs, f.Plain)
    (hnames : ((seen ++ fs).map Family.name).Nodup) :
    (fs.flatMap Family.lines).foldlM feed seen = some (fs.reverse ++ seen) := by
  induction fs generalizing seen with
  | nil => rfl
  | cons f fs ih =>
    have hfresh : f.name ∉ seen.map Family.name := by
      rw [List.map_append, List.map_cons] at hnames
      exact fun h => (List.nodup_append.mp hnames).2.2 _ h _ List.mem_cons_self rfl
    have hrest : ((f :: seen ++ fs).map Family.name).Nodup := by
      refine (List.Perm.nodup_iff ?_).mp hnames
      exact List.perm_middle.map Family.name
    rw [List.flatMap_cons, List.foldlM_append, foldlM_lines (hfs f List.mem_cons_self) hfresh,
      List.reverse_cons, List.append_assoc]
    exact ih (fun g hg => hfs g (List.mem_cons_of_mem f hg)) hrest

/-- A printed document reads back as its families. -/
theorem read_print {fs : List Family} (hfs : ∀ f ∈ fs, f.Plain)
    (hnames : (fs.map Family.name).Nodup) : read (print fs) = some fs := by
  have hlines : ∀ l ∈ fs.flatMap Family.lines, '\n' ∉ l := by
    intro l hl
    obtain ⟨f, hf, hl⟩ := List.mem_flatMap.mp hl
    exact (hfs f hf).lines l hl
  have htext : print fs = (fs.flatMap Family.lines).flatMap (· ++ ['\n']) :=
    List.flatMap_assoc.symm
  have hfold := foldlM_families hfs (show (([] ++ fs).map Family.name).Nodup from hnames)
  rw [read, htext, splitLines_flatMap hlines]
  simp only [if_true, hfold, List.append_nil, Option.map_some, List.reverse_reverse]

end Exposition
