import Mathlib.Data.List.Basic

/-!
Rules for computations in `Except`: how a bind ends, guards that fail with a fixed
error, and loops written as `List.foldlM`. A loop is analysed at a split point: the
part of the list already consumed, the element at hand, and the rest. One computation
relaxes another if it succeeds, with the same value, whenever the other does; so a check that
only rejects can be dropped or weakened without changing what is returned on inputs that passed.
-/

namespace Verium.Lib

universe u v

variable {ε : Type u} {α β σ : Type v}

theorem bind_eq_ok {x : Except ε α} {f : α → Except ε β} {b : β} :
    (x >>= f) = .ok b ↔ ∃ a, x = .ok a ∧ f a = .ok b := by
  cases x with
  | error e =>
    constructor
    · intro h
      cases h
    · rintro ⟨a, h, -⟩
      cases h
  | ok a =>
    constructor
    · intro h
      exact ⟨a, rfl, h⟩
    · rintro ⟨a', h, hf⟩
      cases h
      exact hf

theorem bind_eq_error {x : Except ε α} {f : α → Except ε β} {e : ε} :
    (x >>= f) = .error e ↔ x = .error e ∨ ∃ a, x = .ok a ∧ f a = .error e := by
  cases x with
  | error e' =>
    constructor
    · intro h
      cases h
      exact .inl rfl
    · rintro (h | ⟨a, h, -⟩)
      · cases h
        rfl
      · cases h
  | ok a =>
    constructor
    · intro h
      exact .inr ⟨a, rfl, h⟩
    · rintro (h | ⟨a', h, hf⟩)
      · cases h
      · cases h
        exact hf

@[simp]
theorem ok_bind (a : α) (f : α → Except ε β) : ((Except.ok a : Except ε α) >>= f) = f a :=
  rfl

@[simp]
theorem error_bind (e : ε) (f : α → Except ε β) :
    ((Except.error e : Except ε α) >>= f) = .error e :=
  rfl

/-- Fail with `e` when the condition holds, go on otherwise. -/
def rejectIf (c : Prop) [Decidable c] (e : ε) : Except ε Unit :=
  if c then .error e else .ok ()

/-- Run a check only under a condition. -/
def checkWhen (c : Prop) [Decidable c] (check : Except ε Unit) : Except ε Unit :=
  if c then check else .ok ()

section Guards

variable {c : Prop} [Decidable c] {e : ε} {u : Unit} {check : Except ε Unit}

@[simp]
theorem rejectIf_eq_ok : rejectIf c e = .ok u ↔ ¬ c := by
  unfold rejectIf
  split <;> simp_all

@[simp]
theorem checkWhen_eq_ok : checkWhen c check = .ok u ↔ (c → check = .ok ()) := by
  unfold checkWhen
  split <;> simp_all

theorem rejectIf_of_not (h : ¬ c) : rejectIf c e = .ok () :=
  if_neg h

end Guards

@[simp]
theorem mapError_eq_ok {ε' : Type u} {f : ε → ε'} {x : Except ε α} {a : α} :
    x.mapError f = .ok a ↔ x = .ok a := by
  cases x <;> simp [Except.mapError]

theorem map_eq_ok {x : Except ε α} {f : α → β} {b : β} :
    x.map f = .ok b ↔ ∃ a, x = .ok a ∧ f a = b := by
  cases x <;> simp [Except.map]

@[simp]
theorem mapError_ok {ε' : Type u} (f : ε → ε') (a : α) :
    (Except.ok a : Except ε α).mapError f = .ok a :=
  rfl

@[simp]
theorem mapError_error {ε' : Type u} (f : ε → ε') (e : ε) :
    (Except.error e : Except ε α).mapError f = .error (f e) :=
  rfl

/-- The error a computation ends with, if it does. -/
def failure? : Except ε α → Option ε
  | .ok _ => none
  | .error e => some e

theorem failure?_eq_none {x : Except ε α} : failure? x = none ↔ ∃ a, x = .ok a := by
  cases x <;> simp [failure?]

theorem toOption_eq_some {x : Except ε α} {a : α} : x.toOption = some a ↔ x = .ok a := by
  cases x <;> simp [Except.toOption]

theorem failure?_eq_some {x : Except ε α} {e : ε} : failure? x = some e ↔ x = .error e := by
  cases x <;> simp [failure?]

/-- The computation ends with a result that satisfies `Q`, or with an error that `E` allows. -/
def Ends (E : ε → Prop) (x : Except ε α) (Q : α → Prop) : Prop :=
  match x with
  | .ok a => Q a
  | .error e => E e

namespace Ends

variable {E : ε → Prop} {x : Except ε α} {f : α → Except ε β} {P Q : α → Prop} {R : β → Prop}

theorem bind (hx : Ends E x P) (hf : ∀ a, P a → Ends E (f a) R) : Ends E (x >>= f) R := by
  cases x with
  | ok a => exact hf a hx
  | error e => exact hx

theorem imp {E' : ε → Prop} (hx : Ends E x P) (hE : ∀ e, E e → E' e) (h : ∀ a, P a → Q a) :
    Ends E' x Q := by
  cases x with
  | ok a => exact h a hx
  | error e => exact hE e hx

theorem mono (hx : Ends E x P) (h : ∀ a, P a → Q a) : Ends E x Q :=
  hx.imp (fun _ => id) h

theorem rejectIf {c : Prop} [Decidable c] {e : ε} (h : c → E e) :
    Ends E (Lib.rejectIf c e : Except ε Unit) fun _ => ¬ c := by
  unfold Lib.rejectIf
  split
  next hc => exact h hc
  next hc => exact hc

theorem cases (hx : Ends E x Q) : (∃ a, x = .ok a ∧ Q a) ∨ ∃ e, E e ∧ x = .error e := by
  cases x with
  | ok a => exact .inl ⟨a, rfl, hx⟩
  | error e => exact .inr ⟨e, hx, rfl⟩

end Ends

section Loops

variable {f : σ → α → Except ε σ} {s t : σ} {a : α} {l l₁ l₂ : List α}

@[simp]
theorem foldlM_nil_eq_ok : ([] : List α).foldlM f s = .ok t ↔ s = t := by
  simp [List.foldlM_nil, pure, Except.pure]

theorem foldlM_cons_eq_ok :
    (a :: l).foldlM f s = .ok t ↔ ∃ u, f s a = .ok u ∧ l.foldlM f u = .ok t := by
  rw [List.foldlM_cons, bind_eq_ok]

theorem foldlM_append_eq_ok :
    (l₁ ++ l₂).foldlM f s = .ok t ↔
      ∃ u, l₁.foldlM f s = .ok u ∧ l₂.foldlM f u = .ok t := by
  rw [List.foldlM_append, bind_eq_ok]

theorem foldlM_invariant {I : σ → Prop} (hstep : ∀ a ∈ l, ∀ s t, I s → f s a = .ok t → I t)
    (hs : I s) (h : l.foldlM f s = .ok t) : I t := by
  induction l generalizing s with
  | nil =>
      rw [foldlM_nil_eq_ok] at h
      exact h ▸ hs
  | cons a rest ih =>
      obtain ⟨u, ha, hrest⟩ := foldlM_cons_eq_ok.mp h
      exact ih
        (fun b hb => hstep b (List.mem_cons_of_mem a hb))
        (hstep a List.mem_cons_self s u hs ha) hrest

theorem foldlM_step (h : l.foldlM f s = .ok t) : ∀ a ∈ l, ∃ s' t', f s' a = .ok t' := by
  induction l generalizing s with
  | nil => simp
  | cons a rest ih =>
      obtain ⟨u, ha, hrest⟩ := foldlM_cons_eq_ok.mp h
      exact List.forall_mem_cons.mpr ⟨⟨s, u, ha⟩, ih hrest⟩

theorem forM_eq_ok {g : α → Except ε PUnit} {u : PUnit} :
    l.forM g = .ok u ↔ ∀ a ∈ l, g a = .ok ⟨⟩ := by
  induction l with
  | nil => simp [pure, Except.pure]
  | cons a rest ih =>
      rw [List.forM, bind_eq_ok, List.forall_mem_cons]
      constructor
      · rintro ⟨_, ha, hrest⟩
        exact ⟨ha, ih.mp hrest⟩
      · rintro ⟨ha, hrest⟩
        exact ⟨⟨⟩, ha, ih.mpr hrest⟩

theorem mapM_eq_ok {g : α → Except ε β} {h : α → β} (hg : ∀ a ∈ l, g a = .ok (h a)) :
    l.mapM g = .ok (l.map h) := by
  induction l with
  | nil => rfl
  | cons a rest ih =>
      obtain ⟨ha, hrest⟩ := List.forall_mem_cons.mp hg
      rw [List.mapM_cons, ha, ok_bind, ih hrest]
      rfl

theorem mem_zip_of_mapM {g : α → Option β} {l' : List β}
    (h : l.mapM g = some l') {a : α} (ha : a ∈ l) : ∃ b, g a = some b ∧ (a, b) ∈ l.zip l' := by
  induction l generalizing l' with
  | nil => cases ha
  | cons c rest ih =>
    rw [List.mapM_cons] at h
    obtain ⟨b, hb, h⟩ := Option.bind_eq_some_iff.mp h
    obtain ⟨bs, hbs, h⟩ := Option.bind_eq_some_iff.mp h
    cases h
    rcases List.mem_cons.mp ha with rfl | hmem
    · exact ⟨b, hb, List.mem_cons_self⟩
    · obtain ⟨b', hb', hzip⟩ := ih hbs hmem
      exact ⟨b', hb', List.mem_cons_of_mem _ hzip⟩

theorem foldlM_eq_error_iff {e : ε} :
    l.foldlM f s = .error e ↔
      ∃ pre a post u, l = pre ++ a :: post ∧ pre.foldlM f s = .ok u ∧ f u a = .error e := by
  induction l generalizing s with
  | nil =>
      simp [List.foldlM_nil, pure, Except.pure]
  | cons b rest ih =>
      rw [List.foldlM_cons, bind_eq_error]
      constructor
      · rintro (h | ⟨u, hb, hrest⟩)
        · exact ⟨[], b, rest, s, rfl, rfl, h⟩
        · obtain ⟨pre, a, post, v, rfl, hpre, ha⟩ := ih.mp hrest
          exact ⟨b :: pre, a, post, v, rfl, foldlM_cons_eq_ok.mpr ⟨u, hb, hpre⟩, ha⟩
      · rintro ⟨pre, a, post, v, hl, hpre, ha⟩
        cases pre with
        | nil =>
          rw [foldlM_nil_eq_ok] at hpre
          obtain ⟨rfl, rfl⟩ := List.cons.inj hl
          exact .inl (hpre ▸ ha)
        | cons c pre =>
          obtain ⟨rfl, rfl⟩ := List.cons.inj hl
          obtain ⟨u, hb, hpre⟩ := foldlM_cons_eq_ok.mp hpre
          exact .inr ⟨u, hb, ih.mpr ⟨pre, a, post, v, rfl, hpre, ha⟩⟩

end Loops

section Relax

variable {ε' : Type u}

/-- Whatever `strict` returns, `lax` returns. -/
def Relaxes (lax strict : Except ε α) : Prop :=
  ∀ a, strict = .ok a → lax = .ok a

namespace Relaxes

variable {lax strict : Except ε α} {c c' : Prop} [Decidable c] [Decidable c']

theorem refl (x : Except ε α) : Relaxes x x :=
  fun _ h => h

theorem error (x : Except ε α) (e : ε) : Relaxes x (.error e) := by
  intro a h
  cases h

/-- A sequence may be relaxed in both of its parts. -/
theorem bind {f g : α → Except ε β} (h : Relaxes lax strict) (hfg : ∀ a, Relaxes (f a) (g a)) :
    Relaxes (lax >>= f) (strict >>= g) := by
  intro b hb
  obtain ⟨a, ha, hb⟩ := bind_eq_ok.mp hb
  exact bind_eq_ok.mpr ⟨a, h a ha, hfg a b hb⟩

theorem bind_right (x : Except ε α) {f g : α → Except ε β} (hfg : ∀ a, Relaxes (f a) (g a)) :
    Relaxes (x >>= f) (x >>= g) :=
  (refl x).bind hfg

theorem map (f : α → β) (h : Relaxes lax strict) : Relaxes (f <$> lax) (f <$> strict) := by
  intro b hb
  cases hstrict : strict with
  | error e =>
    rw [hstrict] at hb
    cases hb
  | ok a =>
    rw [h a hstrict, ← hstrict]
    exact hb

theorem mapError (f : ε → ε') (h : Relaxes lax strict) :
    Relaxes (lax.mapError f) (strict.mapError f) := by
  intro a ha
  exact mapError_eq_ok.mpr (h a (mapError_eq_ok.mp ha))

theorem rejectIf {e : ε} (h : c → c') : Relaxes (Lib.rejectIf c e) (Lib.rejectIf c' e) := by
  intro u hu
  exact rejectIf_eq_ok.mpr (mt h (rejectIf_eq_ok.mp hu))

theorem ite {lax' strict' : Except ε α} (h : c → Relaxes lax strict)
    (h' : ¬ c → Relaxes lax' strict') :
    Relaxes (if c then lax else lax') (if c then strict else strict') := by
  split
  · next hcond => exact h hcond
  · next hcond => exact h' hcond

/-- An optional stage can be left out where what follows it would have done without it. -/
theorem optional {x : Except ε β} {f g : β → Except ε α} {k k' : Except ε α} (hc : c → c')
    (hfg : ∀ b, Relaxes (f b) (g b)) (hskip : ∀ b, Relaxes k (g b)) (hk : Relaxes k k') :
    Relaxes (if c then x >>= f else k) (if c' then x >>= g else k') := by
  by_cases hlax : c
  · rw [if_pos hlax, if_pos (hc hlax)]
    exact bind_right x hfg
  · rw [if_neg hlax]
    split
    · intro a ha
      obtain ⟨b, -, ha⟩ := bind_eq_ok.mp ha
      exact hskip b a ha
    · exact hk

theorem skippable {x x' k : Except ε α} (hc : c → c') (hx : Relaxes x x') (hskip : Relaxes k x') :
    Relaxes (if ¬ c then k else x) (if ¬ c' then k else x') := by
  by_cases hstrict : c'
  · rw [if_neg (not_not.mpr hstrict)]
    split
    · exact hskip
    · exact hx
  · rw [if_pos hstrict, if_pos (mt hc hstrict)]
    exact refl k

/-- A loop is relaxed by relaxing its body. -/
theorem foldlM {f g : σ → α → Except ε σ} (hfg : ∀ s a, Relaxes (f s a) (g s a)) (l : List α)
    (s : σ) : Relaxes (l.foldlM f s) (l.foldlM g s) := by
  induction l generalizing s with
  | nil => exact refl _
  | cons a rest ih =>
    rw [List.foldlM_cons, List.foldlM_cons]
    exact (hfg s a).bind ih

end Relaxes

end Relax

end Verium.Lib
