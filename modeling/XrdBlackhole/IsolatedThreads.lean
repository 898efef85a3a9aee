import XrdBlackhole.IsolatedSections

/-!
# Threads with files of their own

The clients of `Isolation` take turns after whole calls. Here each of them is a
thread, and others run between the critical sections of its calls and between the stores
of its reads. It still gets what it would get alone with whole calls.
-/

namespace XrdBlackhole

namespace World
variable {t u : Territory} {w : World} {p : Progress}

theorem enter_within {c : Call} (hc : u.Allows c) : (w.enter c).2.Within u := by
  cases c with
  | ns c =>
    cases c with
    | createDefaults path => exact hc
    | seed path size readtype => trivial
    | rename src dst => trivial
    | unlink fname => trivial
  | fileOpen g path flags mode =>
    simp only [enter]
    split_ifs
    · trivial
    · exact hc.1
  | fileClose g =>
    cases hf : (w.file g).stub <;> simp only [enter, hf]
    · trivial
    · exact hc
  | io g c => exact ⟨hc.1, fun a ha => (w.file g).acts_inside hc.2 ha⟩
  | stat path => cases hf : w.fs.getStub path <;> simp only [enter, hf] <;> trivial

theorem advance_within (hp : p.Within u) : (w.advance p).2.Within u := by
  cases p with
  | seeding path specs =>
    cases specs with
    | nil => trivial
    | cons spec specs => exact fun spec hspec => hp spec (List.mem_cons_of_mem _ hspec)
  | acting g acts r =>
    cases acts with
    | nil => trivial
    | cons a acts =>
      exact ⟨hp.1, fun addr ha act hact => hp.2 addr ha act (List.mem_cons_of_mem _ hact)⟩
  | found g path flags => trivial
  | released g => trivial
  | looked i => trivial
  | returned r => trivial
  | _ => exact hp

theorem setFile_path (w : World) (g h : ℕ) {f : OssFile} (hf : f.path = (w.file g).path) :
    ((w.setFile g f).file h).path = (w.file h).path := by
  rw [setFile_apply]
  split_ifs with hg
  · rw [hf, hg]
  · rfl

theorem advance_path (w : World) (p : Progress) (h : ℕ) :
    ((w.advance p).1.file h).path = (w.file h).path := by
  cases p with
  | seeding path specs => cases specs <;> rfl
  | opened g path flags => exact w.setFile_path g h rfl
  | found g path flags => exact w.setFile_path g h rfl
  | loaded g wb =>
    simp only [advance, storeSize]
    split <;> rfl
  | sized g wb => exact setFile_path _ g h rfl
  | released g => exact w.setFile_path g h rfl
  | acting g acts r =>
    cases acts with
    | nil => rfl
    | cons a acts => exact setFile_path _ g h ((w.file g).act_session a).path
  | _ => rfl

theorem enter_path {c : Call} (hc : u.Allows c) {h : ℕ} (hh : h ∉ u.handles) :
    ((w.enter c).1.file h).path = (w.file h).path := by
  cases c with
  | ns c => cases c <;> rfl
  | fileOpen g path flags mode =>
    simp only [enter]
    rw [setFile_apply, if_neg (ne_of_mem_of_not_mem hc.1 hh).symm]
  | _ => rfl

theorem advance_next_le (w : World) (p : Progress) :
    w.fs.stubs.next ≤ (w.advance p).1.fs.stubs.next := by
  cases p with
  | seeding path specs =>
    cases specs with
    | nil => exact le_rfl
    | cons spec specs => exact Nat.le_succ _
  | loaded g wb =>
    simp only [advance, storeSize]
    split <;> exact le_rfl
  | recorded g => exact (BlackholeFS.close_stubs_next w.fs _).ge
  | acting g acts r => cases acts <;> exact le_rfl
  | _ => exact le_rfl

theorem enter_next_le (w : World) (c : Call) :
    w.fs.stubs.next ≤ (w.enter c).1.fs.stubs.next := by
  cases c with
  | ns c =>
    cases c with
    | createDefaults path => exact le_rfl
    | seed path size readtype => exact w.fs.ns_next_le (.seed path size readtype)
    | rename src dst => exact w.fs.ns_next_le (.rename src dst)
    | unlink fname => exact w.fs.ns_next_le (.unlink fname)
  | fileOpen g path flags mode => exact w.fs.open_next_le path flags mode
  | _ => exact le_rfl

theorem enter_fdLast {c : Call} (hfits : w.fs.fdLast.toNat + c.descriptors < 2 ^ 31) :
    w.fs.fdLast.toNat ≤ (w.enter c).1.fs.fdLast.toNat ∧
      (w.enter c).1.fs.fdLast.toNat + (w.enter c).2.descriptors ≤
        w.fs.fdLast.toNat + c.descriptors := by
  have hstep := step_fdLast hfits
  have hsame : w.fs.fdLast.toNat ≤ w.fs.fdLast.toNat := le_rfl
  cases c with
  | ns c =>
    cases c with
    | createDefaults path => exact ⟨hsame, le_rfl⟩
    | seed path size readtype => exact hstep
    | rename src dst => exact hstep
    | unlink fname => exact hstep
  | fileOpen g path flags mode =>
    rw [step_open_fs] at hstep
    simp only [enter]
    split_ifs <;> exact hstep
  | fileClose g =>
    cases hf : (w.file g).stub <;> simp only [enter, hf] <;> exact ⟨hsame, le_rfl⟩
  | io g c => exact ⟨hsame, le_rfl⟩
  | stat path =>
    cases hf : w.fs.getStub path <;> simp only [enter, hf] <;> exact ⟨hsame, le_rfl⟩

theorem advance_fdLast (hfits : w.fs.fdLast.toNat + p.descriptors < 2 ^ 31) :
    w.fs.fdLast.toNat ≤ (w.advance p).1.fs.fdLast.toNat ∧
      (w.advance p).1.fs.fdLast.toNat + (w.advance p).2.descriptors ≤
        w.fs.fdLast.toNat + p.descriptors := by
  have hsame : w.fs.fdLast.toNat ≤ w.fs.fdLast.toNat := le_rfl
  cases p with
  | seeding path specs =>
    cases specs with
    | nil => exact ⟨hsame, le_rfl⟩
    | cons spec specs =>
      simp only [Progress.descriptors, List.length_cons] at hfits ⊢
      have hadd : (w.fs.fdLast + 1#64).toNat = w.fs.fdLast.toNat + 1 :=
        toNat_add_of_lt (k := 1) (by omega)
      change _ ≤ (w.fs.fdLast + 1#64).toNat ∧ (w.fs.fdLast + 1#64).toNat + specs.length ≤ _
      omega
  | loaded g wb =>
    simp only [advance, storeSize]
    split <;> exact ⟨hsame, le_rfl⟩
  | recorded g =>
    simp only [advance, release, BlackholeFS.close]
    split <;> exact ⟨hsame, le_rfl⟩
  | acting g acts r => cases acts <;> exact ⟨hsame, le_rfl⟩
  | _ => exact ⟨hsame, le_rfl⟩

section
variable {old : Set Word} {n : ℕ}

theorem enter_room {c : Call} (h : w.fs.Room old (c.descriptors + n)) :
    (w.enter c).1.fs.Room old ((w.enter c).2.descriptors + n) := by
  have hfits := h.fits
  obtain ⟨hle, hlast⟩ := enter_fdLast (show w.fs.fdLast.toNat + c.descriptors < 2 ^ 31 by omega)
  exact h.advance hle (by omega)

theorem advance_room (h : w.fs.Room old (p.descriptors + n)) :
    (w.advance p).1.fs.Room old ((w.advance p).2.descriptors + n) := by
  have hfits := h.fits
  obtain ⟨hle, hlast⟩ := advance_fdLast (show w.fs.fdLast.toNat + p.descriptors < 2 ^ 31 by omega)
  exact h.advance hle (by omega)

end

end World

namespace Progress

theorem Named.congr {t u : Territory} {w w' : World} {p : Progress} (h : p.Named t w)
    (hp : p.Within u) (hpath : ∀ k ∈ u.handles, (w'.file k).path = (w.file k).path) :
    p.Named t w' := by
  cases p with
  | opened g path flags => simpa only [Named, hpath g hp] using h
  | loaded g wb => simpa only [Named, hpath g hp] using h
  | sized g wb => simpa only [Named, hpath g hp] using h
  | recorded g => simpa only [Named, hpath g hp] using h
  | _ => trivial

theorem Named.advance {t : Territory} {w : World} {p : Progress} (h : p.Named t w) :
    (w.advance p).2.Named t (w.advance p).1 := by
  have hpath : ∀ g, ((w.advance p).1.file g).path ∈ t.paths ↔ (w.file g).path ∈ t.paths :=
    fun g => by rw [w.advance_path p g]
  cases p with
  | seeding path specs => cases specs <;> trivial
  | loaded g wb => exact (hpath g).trans h
  | sized g wb => exact (hpath g).trans h
  | acting g acts r => cases acts <;> trivial
  | _ => trivial

end Progress

theorem Mirrors.enter_named {old : Set Word} {t : Territory} {ρ : Pairing} {w v : World}
    (h : Mirrors old t ρ w v) {c : Call}
    (hside : ∀ g path flags mode, c = .fileOpen g path flags mode →
      (path ∈ t.paths ↔ g ∈ t.handles)) : (w.enter c).2.Named t (w.enter c).1 := by
  cases c with
  | ns c => cases c <;> trivial
  | fileOpen g path flags mode =>
    have hpath := hside g path flags mode rfl
    simp only [World.enter]
    split_ifs
    · trivial
    · simpa [Progress.Named, World.setFile] using hpath
  | fileClose g =>
    cases hf : (w.file g).stub with
    | none =>
      simp only [World.enter, hf]
      trivial
    | some i =>
      simp only [World.enter, hf]
      exact h.path g (by simp [hf])
  | io g c => trivial
  | stat path => cases hf : w.fs.getStub path <;> simp only [World.enter, hf] <;> trivial

abbrev Pool (τ : Type) := Threads World Call Progress τ

section
variable {τ : Type} [DecidableEq τ] {old : Set Word} {territory : τ → Territory} {a b : τ}
  {ρ ρ' : Pairing} {s s' : Pool τ}

def owed (s : Pool τ) (b : τ) : ℕ :=
  (s.pc b).elim 0 Progress.descriptors + ((s.todo b).map Call.descriptors).sum

theorem owed_put (s : Pool τ) (b : τ) (w : World) (x : Option Progress) (is : List Call) :
    owed (s.put b w x is) b =
      x.elim 0 Progress.descriptors + (is.map Call.descriptors).sum := by
  simp [owed]

omit [DecidableEq τ] in
theorem owed_idle {c : Call} {is : List Call} (hpc : s.pc b = none) (htodo : s.todo b = c :: is) :
    owed s b = c.descriptors + (is.map Call.descriptors).sum := by
  simp [owed, hpc, htodo]

omit [DecidableEq τ] in
theorem owed_running {p : Progress} (hpc : s.pc b = some p) :
    owed s b = p.descriptors + ((s.todo b).map Call.descriptors).sum := by
  simp [owed, hpc]

variable [Fintype τ]

structure Orderly (old : Set Word) (territory : τ → Territory) (a : τ) (ρ : Pairing)
    (s : Pool τ) : Prop where
  within : ∀ b p, s.pc b = some p → p.Within (territory b)
  named : ∀ b p, s.pc b = some p → p.Named (territory a) s.shared
  foreign : ∀ b p, b ≠ a → s.pc b = some p → p.Foreign ρ s.shared.fs.stubs.next
  allows : ∀ b, ∀ c ∈ s.todo b, (territory b).Allows c
  room : s.shared.fs.Room old (∑ b, owed s b)

omit [DecidableEq τ] in
theorem Orderly.fits (h : Orderly old territory a ρ s) (b : τ) :
    s.shared.fs.Room old (owed s b) :=
  h.room.mono (Finset.single_le_sum (fun _ _ => Nat.zero_le _) (Finset.mem_univ b))

theorem Orderly.put (h : Orderly old territory a ρ s) {w : World} {x : Option Progress}
    {is : List Call} (hext : Extends ρ ρ' s.shared.fs.stubs.next)
    (hnext : s.shared.fs.stubs.next ≤ w.fs.stubs.next)
    (hpath : ∀ c, c ≠ b → ∀ k ∈ (territory c).handles, (w.file k).path = (s.shared.file k).path)
    (hx : ∀ p, x = some p → p.Within (territory b) ∧ p.Named (territory a) w ∧
      (b ≠ a → p.Foreign ρ' w.fs.stubs.next))
    (his : ∀ c ∈ is, (territory b).Allows c)
    (hroom : ∀ n, s.shared.fs.Room old (owed s b + n) →
      w.fs.Room old (x.elim 0 Progress.descriptors + (is.map Call.descriptors).sum + n)) :
    Orderly old territory a ρ' (s.put b w x is) := by
  have hpc : ∀ c p, (s.put b w x is).pc c = some p → (c = b ∧ x = some p) ∨
      (c ≠ b ∧ s.pc c = some p) := by
    intro c p hp
    rw [Threads.put_pc] at hp
    split_ifs at hp with hcb
    · exact .inl ⟨hcb, hp⟩
    · exact .inr ⟨hcb, hp⟩
  refine ⟨fun c p hp => ?_, fun c p hp => ?_, fun c p hca hp => ?_, fun c => ?_, ?_⟩
  · rcases hpc c p hp with ⟨rfl, hnew⟩ | ⟨-, hold⟩
    · exact (hx p hnew).1
    · exact h.within c p hold
  · rcases hpc c p hp with ⟨-, hnew⟩ | ⟨hcb, hold⟩
    · exact (hx p hnew).2.1
    · exact (h.named c p hold).congr (h.within c p hold) (hpath c hcb)
  · rcases hpc c p hp with ⟨rfl, hnew⟩ | ⟨-, hold⟩
    · exact (hx p hnew).2.2 hca
    · exact (h.foreign c p hca hold).mono hext hnext
  · rw [Threads.put_todo]
    split_ifs with hcb
    · exact hcb ▸ his
    · exact h.allows c
  · have hsame : ∑ c ∈ Finset.univ.erase b, owed (s.put b w x is) c =
        ∑ c ∈ Finset.univ.erase b, owed s c := by
      refine Finset.sum_congr rfl fun c hc => ?_
      simp [owed, Finset.ne_of_mem_erase hc]
    have hold := h.room
    rw [← Finset.add_sum_erase _ _ (Finset.mem_univ b)] at hold ⊢
    rw [hsame, owed_put]
    exact hroom _ hold

section
variable {c : Call} {is : List Call} {p : Progress} {v : World}

theorem Orderly.enter (h : Orderly old territory a ρ s)
    (hapart : ∀ a b, a ≠ b → (territory a).Apart (territory b))
    (hmirrors : Mirrors old (territory a) ρ s.shared v) (hpc : s.pc b = none)
    (htodo : s.todo b = c :: is) (hext : Extends ρ ρ' s.shared.fs.stubs.next)
    (hforeign : b ≠ a → (s.shared.enter c).2.Foreign ρ' (s.shared.enter c).1.fs.stubs.next) :
    Orderly old territory a ρ' (s.put b (s.shared.enter c).1 (some (s.shared.enter c).2) is) := by
  have hc := h.allows b c (htodo ▸ List.mem_cons_self)
  apply h.put hext (s.shared.enter_next_le c)
  · exact fun d hd k hk => World.enter_path hc ((hapart b d hd.symm).handles k hk)
  · intro p hp
    obtain rfl := Option.some.inj hp
    refine ⟨World.enter_within hc, hmirrors.enter_named ?_, hforeign⟩
    intro g path flags mode hopen
    subst hopen
    by_cases hb : b = a
    · subst hb
      exact iff_of_true hc.2 hc.1
    · have hsides := hapart a b (Ne.symm hb)
      exact iff_of_false (hsides.paths path hc.2) (hsides.handles g hc.1)
  · exact fun d hd => h.allows b d (htodo ▸ List.mem_cons_of_mem c hd)
  · intro n hroom
    rw [owed_idle hpc htodo, Nat.add_assoc] at hroom
    rw [Option.elim_some, Nat.add_assoc]
    exact World.enter_room hroom

theorem Orderly.advance (h : Orderly old territory a ρ s) (hpc : s.pc b = some p)
    (hext : Extends ρ ρ' s.shared.fs.stubs.next)
    (hforeign : b ≠ a → (s.shared.advance p).2.Foreign ρ' (s.shared.advance p).1.fs.stubs.next) :
    Orderly old territory a ρ'
      (s.put b (s.shared.advance p).1 (some (s.shared.advance p).2) (s.todo b)) := by
  apply h.put hext (s.shared.advance_next_le p)
  · exact fun d _ k _ => s.shared.advance_path p k
  · intro q hq
    obtain rfl := Option.some.inj hq
    exact ⟨World.advance_within (h.within b p hpc), (h.named b p hpc).advance, hforeign⟩
  · exact h.allows b
  · intro n hroom
    rw [owed_running hpc, Nat.add_assoc] at hroom
    rw [Option.elim_some, Nat.add_assoc]
    exact World.advance_room hroom

theorem Orderly.return (h : Orderly old territory a ρ s) (b : τ) :
    Orderly old territory a ρ (s.put b s.shared none (s.todo b)) := by
  apply h.put (.refl ρ _) le_rfl
  · exact fun _ _ _ _ => rfl
  · exact fun _ hp => absurd hp nofun
  · exact h.allows b
  · intro n hroom
    rw [owed] at hroom
    exact hroom.mono (by rw [Option.elim_none]; omega)

/-- `s'` has the thread `a` alone. -/
structure Sees (old : Set Word) (territory : τ → Territory) (a : τ) (ρ : Pairing)
    (s s' : Pool τ) : Prop where
  orderly : Orderly old territory a ρ s
  mirrors : Mirrors old (territory a) ρ s.shared s'.shared
  pc : Option.Rel (Progress.Alike old ρ) (s.pc a) (s'.pc a)
  todo : s'.todo a = s.todo a
  room : s'.shared.fs.Room old (owed s' a)

theorem Sees.mine (hapart : ∀ a b, a ≠ b → (territory a).Apart (territory b))
    (h : Sees old territory a ρ s s') :
    (∃ ρ', Sees old territory a ρ' (World.sections.turn s a).1 (World.sections.turn s' a).1) ∧
      Option.Rel (Reply.Alike old) (World.sections.turn s a).2 (World.sections.turn s' a).2 := by
  have hroom := h.room
  have hcase := World.sections.turn_case s a
  generalize World.sections.turn s a = r at hcase
  cases hcase with
  | idle hpc htodo =>
    have hpc' := Split.rel_none h.pc hpc
    simp only [Split.turn, hpc', h.todo, htodo]
    exact ⟨⟨ρ, h⟩, .none⟩
  | enter c is hpc htodo =>
    have hpc' := Split.rel_none h.pc hpc
    have htodo' := h.todo.trans htodo
    have hfits := h.orderly.fits a
    rw [owed_idle hpc htodo] at hfits
    rw [owed_idle hpc' htodo'] at hroom
    have hle := Nat.le_add_right c.descriptors (is.map Call.descriptors).sum
    obtain ⟨ρ', hext, hmirrors, halike⟩ := h.mirrors.enter
      (h.orderly.allows a c (htodo ▸ List.mem_cons_self)) (hfits.mono hle) (hroom.mono hle)
    have hroom' := World.enter_room hroom
    simp only [Split.turn, hpc', htodo']
    refine ⟨⟨ρ', h.orderly.enter hapart h.mirrors hpc htodo hext fun hne => absurd rfl hne,
      hmirrors, ?_, ?_, ?_⟩, .none⟩
    · rw [Threads.put_pc, Threads.put_pc, if_pos rfl, if_pos rfl]
      exact .some halike
    · simp
    · rw [owed_put]
      exact hroom'
  | advance p hpc hresult =>
    obtain ⟨q, hpc', hpq⟩ := Split.rel_some h.pc hpc
    have hresult' := Split.rel_none hpq.result hresult
    have hfits := h.orderly.fits a
    rw [owed_running hpc] at hfits
    rw [owed_running hpc'] at hroom
    obtain ⟨ρ', hext, hmirrors, halike⟩ := h.mirrors.advance (h.orderly.within a p hpc)
      (h.orderly.named a p hpc) hpq (hfits.mono (Nat.le_add_right _ _))
      (hroom.mono (Nat.le_add_right _ _))
    have hroom' := World.advance_room hroom
    simp only [Split.turn, hpc', World.sections, hresult']
    refine ⟨⟨ρ', h.orderly.advance hpc hext fun hne => absurd rfl hne, hmirrors, ?_, ?_, ?_⟩, .none⟩
    · rw [Threads.put_pc, Threads.put_pc, if_pos rfl, if_pos rfl]
      exact .some halike
    · simp [h.todo]
    · rw [owed_put]
      exact hroom'
  | «return» p o hpc hresult =>
    obtain ⟨q, hpc', hpq⟩ := Split.rel_some h.pc hpc
    obtain ⟨r, hresult', hreply⟩ := Split.rel_some hpq.result hresult
    have hroom' : s'.shared.fs.Room old (0 + ((s'.todo a).map Call.descriptors).sum) := by
      rw [owed] at hroom
      exact hroom.mono (by omega)
    simp only [Split.turn, hpc', World.sections, hresult']
    refine ⟨⟨ρ, h.orderly.return a, h.mirrors, ?_, ?_, ?_⟩, .some hreply⟩
    · rw [Threads.put_pc, Threads.put_pc, if_pos rfl, if_pos rfl]
      exact .none
    · simp [h.todo]
    · rw [owed_put]
      exact hroom'

theorem Sees.other (hapart : ∀ a b, a ≠ b → (territory a).Apart (territory b))
    (h : Sees old territory a ρ s s') (hb : b ≠ a) :
    Sees old territory a ρ (World.sections.turn s b).1 s' := by
  have hsides := hapart a b hb.symm
  have hcase := World.sections.turn_case s b
  generalize World.sections.turn s b = r at hcase
  have hput : ∀ {w x is}, Orderly old territory a ρ (s.put b w x is) →
      Mirrors old (territory a) ρ w s'.shared → Sees old territory a ρ (s.put b w x is) s' := by
    intro w x is horderly hmirrors
    refine ⟨horderly, hmirrors, ?_, ?_, h.room⟩
    · rw [Threads.put_pc, if_neg hb.symm]
      exact h.pc
    · rw [Threads.put_todo, if_neg hb.symm]
      exact h.todo
  cases hcase with
  | idle hpc htodo => exact h
  | enter c is hpc htodo =>
    obtain ⟨hmirrors, hforeign⟩ := h.mirrors.enter_other hsides
      (h.orderly.allows b c (htodo ▸ List.mem_cons_self))
    exact hput (h.orderly.enter hapart h.mirrors hpc htodo (.refl ρ _) fun _ => hforeign) hmirrors
  | advance p hpc hresult =>
    obtain ⟨hmirrors, hforeign⟩ := h.mirrors.advance_other hsides (h.orderly.within b p hpc)
      (h.orderly.named b p hpc)
    exact hput (h.orderly.advance hpc (.refl ρ _) fun _ => hforeign) hmirrors
  | «return» p o hpc hresult => exact hput (h.orderly.return b) h.mirrors

omit [DecidableEq τ] in
theorem Sees.start (territory : τ → Territory) {w : World} (hw : w.Sound)
    (hidle : ∀ h, (w.file h).stub = none) {todo : τ → List Call}
    (htodo : ∀ a, ∀ c ∈ todo a, (territory a).Allows c)
    (hroom : w.fs.Room old (∑ a, ((todo a).map Call.descriptors).sum)) (a : τ) :
    ∃ ρ, Sees old territory a ρ { shared := w, todo := todo } { shared := w, todo := todo } := by
  have howed : ∀ b, owed { shared := w, todo := todo } b = ((todo b).map Call.descriptors).sum :=
    fun b => Nat.zero_add _
  have horderly : ∀ ρ, Orderly old territory a ρ { shared := w, todo := todo } := by
    intro ρ
    refine ⟨fun _ _ hp => absurd hp nofun, fun _ _ hp => absurd hp nofun,
      fun _ _ _ hp => absurd hp nofun, htodo, ?_⟩
    rwa [Finset.sum_congr rfl fun b _ => howed b]
  exact ⟨_, horderly _, .start (territory a) hw hidle, .none, rfl, (horderly Eq).fits a⟩

end

end

/-- Threads whose paths, handles and buffers are their own may be interleaved between all
critical sections and all single stores and increments: each of them gets the replies of
its whole calls made alone, apart from the inodes of files which did not exist at the
start, and after enough turns of its own it has made them all and finds the same bytes. -/
theorem threads_isolated {τ : Type} [Fintype τ] [DecidableEq τ] (territory : τ → Territory)
    (hapart : ∀ a b, a ≠ b → (territory a).Apart (territory b)) (before : List Call)
    (hidle : ∀ h, ((World.machine.exec {} before).file h).stub = none) (todo : τ → List Call)
    (htodo : ∀ a, ∀ c ∈ todo a, (territory a).Allows c)
    (hfits : World.machine.total World.increments {} before +
      ∑ a, ((todo a).map Call.descriptors).sum < 2 ^ 31) (a : τ) :
    let w := World.machine.exec {} before
    let start : Pool τ := { shared := w, todo := todo }
    let alone := World.machine.outputs w (todo a)
    ∃ n, ∀ schedule : List τ,
      (∃ whole, whole <+: alone ∧
        List.Forall₂ (Reply.Alike w.fs.inodes) (World.sections.replies a start schedule) whole) ∧
      (n ≤ schedule.count a →
        List.Forall₂ (Reply.Alike w.fs.inodes) (World.sections.replies a start schedule) alone ∧
        ∀ addr ∈ (territory a).addrs, (World.machine.exec w (todo a)).mem addr =
          ((World.sections.threads τ).exec start schedule).shared.mem addr) := by
  intro w start alone
  obtain ⟨ρ, hstart⟩ := Sees.start territory (.exec before) hidle htodo
    (World.exec_room before hfits) a
  have hmine : ∀ s s' : Pool τ, (∃ ρ, Sees w.fs.inodes territory a ρ s s') →
      (∃ ρ, Sees w.fs.inodes territory a ρ (World.sections.turn s a).1
          (World.sections.turn s' a).1) ∧
        Option.Rel (Reply.Alike w.fs.inodes) (World.sections.turn s a).2
          (World.sections.turn s' a).2 := by
    intro s s' h
    obtain ⟨ρ, h⟩ := h
    exact h.mine hapart
  have hother : ∀ (s s' : Pool τ) b, b ≠ a → (∃ ρ, Sees w.fs.inodes territory a ρ s s') →
      ∃ ρ, Sees w.fs.inodes territory a ρ (World.sections.turn s b).1 s' := by
    intro s s' b hb h
    obtain ⟨ρ, h⟩ := h
    exact ⟨ρ, h.other hapart hb⟩
  obtain ⟨n, hn⟩ := World.sections.exists_whole_calls hmine hother ⟨ρ, hstart⟩
  refine ⟨n, fun schedule => ⟨(hn schedule).1, fun hcount => ?_⟩⟩
  obtain ⟨hreplies, s', ⟨ρ', hend⟩, hshared⟩ := (hn schedule).2 hcount
  refine ⟨hreplies, fun addr haddr => ?_⟩
  rw [← hend.mirrors.mem addr haddr, hshared]
  rfl

def upload (me : Bool) : List Call :=
  if me then
    [.fileOpen 0 "/a".toList O_RDONLY 0, .io 0 .fstat, .fileClose 0,
     .fileOpen 0 "/a".toList (O_WRONLY ||| O_TRUNC) 0o644, .io 0 (.write 0 5), .fileClose 0,
     .stat "/a".toList]
  else [.fileOpen 1 "/b".toList O_WRONLY 0o644, .io 1 (.write 0 7), .fileClose 1]

theorem threads_isolated_two : ∃ n, ∀ schedule : List Bool, n ≤ schedule.count true →
    List.Forall₂ (Reply.Alike (World.machine.exec {} seededBefore).fs.inodes)
      (World.sections.replies true
        { shared := World.machine.exec {} seededBefore, todo := upload } schedule)
      (World.machine.outputs (World.machine.exec {} seededBefore) (upload true)) := by
  have hallows : ∀ a, ∀ c ∈ upload a, (ownFile a).Allows c := by
    simp [upload, ownFile, Territory.Allows, IoCall.Inside]
  obtain ⟨n, hn⟩ := threads_isolated ownFile ownFile_apart seededBefore (fun _ => rfl) upload
    hallows (by decide) true
  exact ⟨n, fun schedule hcount => ((hn schedule).2 hcount).1⟩

end XrdBlackhole
