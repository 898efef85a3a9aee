import XrdBlackhole.Namespace

/-!
# Directory handles

`Opendir` takes a snapshot of the children of a path and every `Readdir` call moves
the cursor past one name. The cursor also passes a name which does not fit, and an
empty name looks like the end of the directory.
-/

namespace XrdBlackhole

def ENAMETOOLONG : ℤ := 36

structure OssDir where
  dirPrefix : Str := []
  entries : List Str := []
  pos : ℕ := 0

abbrev BuffLen := {blen : CInt // 1 ≤ blen.toInt}

/-- The return value, and the buffer as the caller reads it, up to its first NUL. -/
structure DirReply where
  rc : ℤ
  buff : Str := []
  deriving DecidableEq

namespace OssDir

def opendir (d : OssDir) (fs : BlackholeFS) (path : Str) : ℤ × OssDir :=
  (XrdOssOK, { d with dirPrefix := path, entries := fs.readdir path [], pos := 0 })

def close (d : OssDir) : ℤ × OssDir := (XrdOssOK, { d with entries := [], pos := 0 })

/-- The length of the name is cast to `int`. The reply is `none` when the copy runs
over the end of the buffer. -/
def readdir (d : OssDir) (blen : CInt) : Option DirReply × OssDir :=
  match d.entries[d.pos]? with
  | none => (some ⟨XrdOssOK, []⟩, d)
  | some name =>
    let d := { d with pos := d.pos + 1 }
    if blen.toInt ≤ (BitVec.ofNat 32 name.length).toInt then (some ⟨-ENAMETOOLONG, []⟩, d)
    else if (name.length : ℤ) < blen.toInt then (some ⟨XrdOssOK, cString name⟩, d)
    else (none, d)

def machine : Machine OssDir BuffLen (Option DirReply) :=
  ⟨fun d blen => ((d.readdir blen.1).2, (d.readdir blen.1).1)⟩

def remaining (d : OssDir) : List Str := d.entries.drop d.pos

def endOfDirectory : Option DirReply := some ⟨XrdOssOK, []⟩

def returnedName : Option DirReply → Option Str
  | some r => if r.rc = XrdOssOK then some r.buff else none
  | none => none

def delivered (rs : List (Option DirReply)) : List Str :=
  (rs.takeWhile (· ≠ endOfDirectory)).filterMap returnedName

def KeepsName (d : OssDir) (blen : BuffLen) : Prop :=
  (d.readdir blen.1).1 = some ⟨-ENAMETOOLONG, []⟩ → (d.readdir blen.1).2.remaining = d.remaining

structure Complete (d : OssDir) (blens : List BuffLen) : Prop where
  defined : none ∉ machine.outputs d blens
  inOrder : delivered (machine.outputs d blens) <+: d.remaining
  keeps : machine.EveryStep KeepsName d blens
  ends : ∀ before after, machine.outputs d blens = before ++ endOfDirectory :: after →
    delivered before = d.remaining ∧ ∀ r ∈ after, r = endOfDirectory

/-- The name is not empty, is a C string and fits the buffer. -/
def Deliverable (name : Str) (blen : BuffLen) : Prop :=
  name ≠ [] ∧ cString name = name ∧ (name.length : ℤ) < blen.1.toInt

section
variable {d : OssDir} {blen : BuffLen} {blens : List BuffLen} {name : Str} {rest : List Str}

theorem readdir_at_end (hd : d.remaining = []) (blen : CInt) :
    d.readdir blen = (endOfDirectory, d) := by
  have hnone : d.entries[d.pos]? = none :=
    List.getElem?_eq_none (List.drop_eq_nil_iff.mp hd)
  simp only [readdir, hnone, endOfDirectory]

theorem step_at_end (hd : d.remaining = []) (blen : BuffLen) :
    machine.out d blen = endOfDirectory ∧ machine.next d blen = d :=
  Prod.mk.inj (readdir_at_end hd blen.1)

theorem entry_of_remaining (hd : d.remaining = name :: rest) : d.entries[d.pos]? = some name := by
  rw [← List.head?_drop]
  exact congrArg List.head? hd

theorem remaining_next (hd : d.remaining = name :: rest) (blen : CInt) :
    (d.readdir blen).2.remaining = rest := by
  have htail : d.entries.drop (d.pos + 1) = rest := by
    rw [← List.tail_drop]
    exact congrArg List.tail hd
  simp only [readdir, entry_of_remaining hd]
  split_ifs <;> exact htail

theorem cast_length {n : ℕ} (h : (n : ℤ) < blen.1.toInt) : (BitVec.ofNat 32 n).toInt = n := by
  have hlt := BitVec.toInt_lt (x := blen.1)
  rw [BitVec.toInt_ofNat', Int.bmod_eq_of_le] <;> omega

theorem readdir_deliverable (hd : d.remaining = name :: rest) (hname : Deliverable name blen) :
    (d.readdir blen.1).1 = some ⟨XrdOssOK, name⟩ := by
  obtain ⟨_, hcstr, hfits⟩ := hname
  simp only [readdir, entry_of_remaining hd, cast_length hfits, not_le.mpr hfits, hfits, hcstr,
    if_true, if_false]

theorem readdir_cases (hd : d.remaining = name :: rest) (blen : BuffLen) :
    (d.readdir blen.1).1 = some ⟨-ENAMETOOLONG, []⟩ ∨ (d.readdir blen.1).1 = none ∨
      (d.readdir blen.1).1 = some ⟨XrdOssOK, cString name⟩ ∧
        (name.length : ℤ) < blen.1.toInt := by
  simp only [readdir, entry_of_remaining hd]
  split_ifs with hlong hfits
  · exact .inl rfl
  · exact .inr (.inr ⟨rfl, hfits⟩)
  · exact .inr (.inl rfl)

theorem delivered_name {name : Str} (hname : name ≠ []) (rs : List (Option DirReply)) :
    delivered (some ⟨XrdOssOK, name⟩ :: rs) = name :: delivered rs := by
  have hne : some ⟨XrdOssOK, name⟩ ≠ endOfDirectory := by
    simpa [endOfDirectory] using hname
  simp [delivered, hne, returnedName]

theorem outputs_at_end (hd : d.remaining = []) (blens : List BuffLen) :
    machine.outputs d blens = List.replicate blens.length endOfDirectory := by
  induction blens with
  | nil => rfl
  | cons blen blens ih =>
    obtain ⟨hout, hnext⟩ := step_at_end hd blen
    rw [Machine.outputs, hout, hnext, ih]
    rfl

theorem complete_at_end (hd : d.remaining = []) (blens : List BuffLen) : Complete d blens := by
  have houts := outputs_at_end hd blens
  have hall : ∀ r ∈ machine.outputs d blens, r = endOfDirectory := by
    rw [houts]
    exact fun r hr => List.eq_of_mem_replicate hr
  refine ⟨fun hnone => ?_, ?_, ?_, fun before after hsplit => ⟨?_, fun r hr => ?_⟩⟩
  · cases hall none hnone
  · have hzero : delivered (machine.outputs d blens) = [] := by
      rw [houts]
      cases blens <;> simp [delivered, List.replicate_succ]
    rw [hzero]
    exact List.nil_prefix
  · clear houts hall
    induction blens with
    | nil => trivial
    | cons blen blens ih =>
      refine ⟨fun hfail => ?_, ?_⟩
      · rw [readdir_at_end hd] at hfail
        exact absurd hfail (show endOfDirectory ≠ some ⟨-ENAMETOOLONG, []⟩ by decide)
      · rw [(step_at_end hd blen).2]
        exact ih
  · rw [hd]
    cases before with
    | nil => rfl
    | cons r before =>
      have hr : r = endOfDirectory := hall r (by simp [hsplit])
      simp [delivered, hr]
  · exact hall r (by simp [hsplit, hr])

theorem Complete.of_cons (hd : d.remaining = name :: rest) (h : Complete d (blen :: blens)) :
    Deliverable name blen ∧ Complete (machine.next d blen) blens := by
  obtain ⟨hdefined, horder, hkeeps, hends⟩ := h
  have hrest : (machine.next d blen).remaining = rest := remaining_next hd blen.1
  have hne : (d.readdir blen.1).1 ≠ some ⟨-ENAMETOOLONG, []⟩ := by
    intro hfail
    have hsame := hkeeps.1 hfail
    rw [remaining_next hd, hd] at hsame
    exact List.cons_ne_self _ _ hsame.symm
  have hsome : (d.readdir blen.1).1 ≠ none := fun hnone =>
    hdefined (List.mem_cons.mpr (.inl hnone.symm))
  obtain ⟨hreply, hfits⟩ := ((readdir_cases hd blen).resolve_left hne).resolve_left hsome
  have hout : machine.outputs d (blen :: blens) =
      some ⟨XrdOssOK, cString name⟩ :: machine.outputs (machine.next d blen) blens :=
    congrArg (· :: _) hreply
  rw [hout] at hdefined horder hends
  have hnonempty : cString name ≠ [] := by
    intro hnil
    have hstop := (hends [] _ (by rw [hnil]; rfl)).1
    rw [hd] at hstop
    cases hstop
  rw [delivered_name hnonempty, hd, List.cons_prefix_cons] at horder
  have hname : Deliverable name blen := ⟨horder.1 ▸ hnonempty, horder.1, hfits⟩
  refine ⟨hname, ?_, ?_, hkeeps.2, fun before after hsplit => ?_⟩
  · exact fun hnone => hdefined (List.mem_cons_of_mem _ hnone)
  · rw [hrest]
    exact horder.2
  · obtain ⟨hall, hafter⟩ := hends (_ :: before) after (congrArg (_ :: ·) hsplit)
    rw [delivered_name hnonempty, hd] at hall
    rw [hrest]
    exact ⟨(List.cons.inj hall).2, hafter⟩

theorem Complete.cons (hd : d.remaining = name :: rest) (hname : Deliverable name blen)
    (h : Complete (machine.next d blen) blens) : Complete d (blen :: blens) := by
  obtain ⟨hdefined, horder, hkeeps, hends⟩ := h
  have hrest : (machine.next d blen).remaining = rest := remaining_next hd blen.1
  have hreply := readdir_deliverable hd hname
  have hout : machine.outputs d (blen :: blens) =
      some ⟨XrdOssOK, name⟩ :: machine.outputs (machine.next d blen) blens :=
    congrArg (· :: _) hreply
  rw [hrest] at horder
  refine ⟨?_, ?_, ⟨fun hfail => ?_, hkeeps⟩, fun before after hsplit => ?_⟩
  · rw [hout]
    simpa using hdefined
  · rw [hout, delivered_name hname.1, hd, List.cons_prefix_cons]
    exact ⟨rfl, horder⟩
  · rw [hreply] at hfail
    exact absurd (congrArg (Option.map DirReply.rc) hfail) (show some XrdOssOK ≠ some _ by decide)
  · rw [hout] at hsplit
    cases before with
    | nil =>
      have hnil : name = [] := congrArg DirReply.buff (Option.some.inj (List.cons.inj hsplit).1)
      exact absurd hnil hname.1
    | cons r before =>
      obtain ⟨rfl, htail⟩ := List.cons.inj hsplit
      obtain ⟨hall, hafter⟩ := hends before after htail
      rw [delivered_name hname.1, hd, hall, hrest]
      exact ⟨rfl, hafter⟩

theorem complete_cons (hd : d.remaining = name :: rest) :
    Complete d (blen :: blens) ↔
      Deliverable name blen ∧ Complete (machine.next d blen) blens :=
  ⟨Complete.of_cons hd, fun h => Complete.cons hd h.1 h.2⟩

theorem complete_iff_deliverable (d : OssDir) (blens : List BuffLen) :
    Complete d blens ↔ ∀ e ∈ d.remaining.zip blens, Deliverable e.1 e.2 := by
  induction blens generalizing d with
  | nil =>
    refine iff_of_true ⟨List.not_mem_nil, List.nil_prefix, trivial, ?_⟩ (by simp)
    intro before after hsplit
    cases before <;> cases hsplit
  | cons blen blens ih =>
    cases hd : d.remaining with
    | nil => exact iff_of_true (complete_at_end hd _) (by simp)
    | cons name rest =>
      have hrest : (machine.next d blen).remaining = rest := remaining_next hd blen.1
      rw [complete_cons hd, ih, hrest, List.zip_cons_cons, List.forall_mem_cons]

end

end OssDir

namespace BlackholeFS

theorem mem_readdir {fs : BlackholeFS} {path name : Str} :
    name ∈ fs.readdir path [] ↔ ∃ fpath i, fs.files[fpath]? = some i ∧
      parentOf fpath = normalise path ∧ nameOf fpath = name := by
  simp [readdir, Std.ExtTreeMap.mem_toList_iff_getElem?_eq_some]

theorem nameOf_eq_nil_iff (fpath : Str) :
    nameOf fpath = [] ↔ fpath = [] ∨ fpath.getLast? = some '/' := by
  rcases List.eq_nil_or_concat fpath with rfl | ⟨init, a, rfl⟩
  · simp [nameOf, rfind]
  · by_cases ha : a = '/'
    · simp [nameOf, rfind, List.idxOf?_cons, ha]
    · have hbeq : (a == '/') = false := by simpa using ha
      cases hslash : init.reverse.idxOf? '/' with
      | none => simp [nameOf, rfind, List.idxOf?_cons, hbeq, hslash, ha]
      | some k =>
        have hpos : 0 < init.length := List.length_pos_iff.mpr fun hnil => by simp [hnil] at hslash
        simpa [nameOf, rfind, List.idxOf?_cons, hbeq, hslash, ha] using hpos

/-- The entries which `Readdir` cannot tell from the end of the directory come from
the paths which end in a slash. -/
theorem empty_entry_iff {fs : BlackholeFS} {path : Str} :
    [] ∈ fs.readdir path [] ↔ ∃ fpath i, fs.files[fpath]? = some i ∧
      parentOf fpath = normalise path ∧ (fpath = [] ∨ fpath.getLast? = some '/') := by
  simp only [mem_readdir, nameOf_eq_nil_iff]

end BlackholeFS

/-- In every reachable namespace, the calls after `Opendir` deliver the collected
entries exactly when each of them meets an entry which its buffer can return. -/
theorem listing_complete_iff (cs : List FsCall) (d : OssDir) (path : Str)
    (blens : List BuffLen) :
    (d.opendir (BlackholeFS.machine.exec {} cs) path).2.Complete blens ↔
      ∀ e ∈ ((BlackholeFS.machine.exec {} cs).readdir path []).zip blens,
        OssDir.Deliverable e.1 e.2 :=
  OssDir.complete_iff_deliverable _ _

theorem short_buffer_loses_entry :
    ¬ (({} : OssDir).opendir (BlackholeFS.machine.exec {}
      [.fsOpen "/d/ab".toList O_WRONLY 0o644]) "/d".toList).2.Complete
        [⟨2, by decide⟩, ⟨10, by decide⟩] := by
  intro hcomplete
  have hkeeps := hcomplete.keeps.1
  revert hkeeps
  unfold OssDir.KeepsName
  decide

end XrdBlackhole
