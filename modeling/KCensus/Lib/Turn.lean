import Mathlib.Order.Basic

namespace KCensus.Lib

variable {ε σ α β : Type}

-- A program that may fail; what it has done to the state by then stays done.
abbrev Turn (ε σ : Type) := EStateM ε σ

namespace Turn

def check (b : Bool) (e : ε) : Turn ε σ Unit := if b then pure () else throw e

def state : EStateM.Result ε σ α → σ
  | .ok _ s => s
  | .error _ s => s

-- Run from `s`, the program ends as `Q` says, or fails as `E` says.
def Meets (m : Turn ε σ α) (s : σ) (Q : α → σ → Prop) (E : ε → σ → Prop) : Prop :=
  match m s with
  | .ok a t => Q a t
  | .error e t => E e t

variable {m : Turn ε σ α} {f : α → Turn ε σ β} {s : σ} {Q Q' : α → σ → Prop}
  {R : β → σ → Prop} {E E' : ε → σ → Prop}

@[simp] theorem meets_pure {a : α} : Meets (pure a) s Q E ↔ Q a s := Iff.rfl

@[simp] theorem meets_throw {e : ε} : Meets (throw e : Turn ε σ α) s Q E ↔ E e s := Iff.rfl

@[simp] theorem meets_get {Q : σ → σ → Prop} : Meets (get : Turn ε σ σ) s Q E ↔ Q s s := Iff.rfl

@[simp] theorem meets_modify {g : σ → σ} {Q : Unit → σ → Prop} :
    Meets (modify g : Turn ε σ Unit) s Q E ↔ Q () (g s) := Iff.rfl

@[simp] theorem meets_bind :
    Meets (m >>= f) s R E ↔ Meets m s (fun a t => Meets (f a) t R E) E := by
  change Meets (EStateM.bind m f) s R E ↔ _
  simp only [Meets, EStateM.bind]
  cases m s with
  | ok a t => exact Iff.rfl
  | error e t => exact Iff.rfl

theorem meets_check {b : Bool} {e : ε} {Q : Unit → σ → Prop} :
    Meets (check b e) s Q E ↔ (b = true → Q () s) ∧ (b = false → E e s) := by
  cases b with
  | true => simp [check]
  | false => simp [check]

theorem Meets.mono (h : Meets m s Q E) (hq : ∀ a t, Q a t → Q' a t) (he : ∀ e t, E e t → E' e t) :
    Meets m s Q' E' := by
  rw [Meets] at h ⊢
  cases hm : m s with
  | ok a t =>
    rw [hm] at h
    exact hq a t h
  | error e t =>
    rw [hm] at h
    exact he e t h

theorem Meets.of_eq {a : α} {t : σ} (h : m s = .ok a t) (hq : Q a t) : Meets m s Q E := by
  rw [Meets, h]
  exact hq

theorem Meets.get {f : σ → Turn ε σ β} (h : Meets (f s) s R E) : Meets (MonadState.get >>= f) s R E :=
  h

theorem Meets.post (h : Meets m s Q E) (hq : ∀ a t, Q a t → Q' a t) : Meets m s Q' E :=
  h.mono hq fun _ _ => id

theorem Meets.and (h : Meets m s Q E) (h' : Meets m s Q' E') :
    Meets m s (fun a t => Q a t ∧ Q' a t) fun e t => E e t ∧ E' e t := by
  rw [Meets] at h h' ⊢
  cases hm : m s with
  | ok a t =>
    rw [hm] at h h'
    exact ⟨h, h'⟩
  | error e t =>
    rw [hm] at h h'
    exact ⟨h, h'⟩

-- Run from `s`, the program only takes steps of `rel`, also as far as it comes when it fails.
def Along (rel : σ → σ → Prop) (m : Turn ε σ α) (s : σ) : Prop :=
  Meets m s (fun _ => rel s) (fun _ => rel s)

namespace Along

variable {rel : σ → σ → Prop} {t : σ}

theorem read (hm : Along rel m s) (hf : ∀ a t, rel s t → Meets (f a) t R E)
    (he : ∀ e t, rel s t → E e t) : Meets (m >>= f) s R E :=
  meets_bind.2 (Meets.mono hm hf he)

variable [IsPreorder σ rel]

theorem pure (a : α) : Along rel (Pure.pure a : Turn ε σ α) s := refl s

theorem throw (e : ε) : Along rel (MonadExcept.throw e : Turn ε σ α) s := refl s

theorem check {b : Bool} {e : ε} : Along rel (Turn.check b e) s :=
  meets_check.2 ⟨fun _ => refl s, fun _ => refl s⟩

theorem after (h : rel s t) (hm : Along rel m t) : Meets m t (fun _ => rel s) (fun _ => rel s) :=
  Meets.mono hm (fun _ _ => IsTrans.trans _ _ _ h) fun _ _ => IsTrans.trans _ _ _ h

theorem bind (hm : Along rel m s) (hf : ∀ a t, rel s t → Along rel (f a) t) :
    Along rel (m >>= f) s :=
  hm.read (fun a t ht => after ht (hf a t ht)) fun _ _ => id

end Along

end Turn

end KCensus.Lib
