import Mathlib.Data.List.Basic

/-!
# Programs with a state and exceptions

`Prog σ ε α` is a program that reads and writes a state `σ` and returns an `α` or raises an `ε`; what it
wrote before it raised stays written.  `exec x s` is the outcome and the state that `x` leaves.

* `Post x s Q E`: run from `s`, `x` returns with `Q` or raises with `E`.
* `Within R x`: the state that `x` leaves is related by `R` to the one that it found, whether it returns
  or raises.  For a preorder `R` this passes through every program construct, so a frame condition
  ("this part is unchanged") is proved of the primitive operations only.
* `Throws E x`: whatever `x` raises meets `E`.
* `drain`: the loop "while the collection is not empty, treat one element".
-/

namespace Nica.Lib

/-- Programs over the state `σ` with exceptions `ε`. -/
def Prog (σ ε α : Type) : Type := σ → Except ε α × σ

namespace Prog

variable {σ ε α β : Type}

/-- The outcome of a program and the state that it leaves. -/
def exec (x : Prog σ ε α) (s : σ) : Except ε α × σ :=
  x s

instance : Monad (Prog σ ε) where
  pure a := fun s => (.ok a, s)
  bind x f := fun s =>
    match x s with
    | (.ok a, s') => f a s'
    | (.error e, s') => (.error e, s')

instance : MonadExcept ε (Prog σ ε) where
  throw e := fun s => (.error e, s)
  tryCatch x h := fun s =>
    match x s with
    | (.ok a, s') => (.ok a, s')
    | (.error e, s') => h e s'

instance : MonadStateOf σ (Prog σ ε) where
  get := fun s => (.ok s, s)
  set s := fun _ => (.ok (), s)
  modifyGet f := fun s => (.ok (f s).1, (f s).2)

/-- The loop `while xs: body(next(iter(xs)))` over a collection that is part of the state; it makes at
most `fuel` rounds. -/
def drain (xs : σ → List β) (body : β → Prog σ ε Unit) : ℕ → Prog σ ε Unit
  | 0 => pure ()
  | fuel + 1 => do
    match xs (← get) with
    | [] => pure ()
    | x :: _ =>
      body x
      drain xs body fuel

/-! ### Execution -/

@[simp] theorem exec_pure (a : α) (s : σ) : exec (pure a : Prog σ ε α) s = (.ok a, s) := rfl

@[simp] theorem exec_throw (e : ε) (s : σ) : exec (throw e : Prog σ ε α) s = (.error e, s) := rfl

@[simp] theorem exec_get (s : σ) : exec (get : Prog σ ε σ) s = (.ok s, s) := rfl

@[simp]
theorem exec_modify (f : σ → σ) (s : σ) : exec (modify f : Prog σ ε Unit) s = (.ok (), f s) := rfl

theorem exec_bind (x : Prog σ ε α) (f : α → Prog σ ε β) (s : σ) :
    exec (x >>= f) s = match exec x s with
      | (.ok a, s') => exec (f a) s'
      | (.error e, s') => (.error e, s') :=
  rfl

theorem exec_bind_ok {x : Prog σ ε α} {s s' : σ} {a : α} (h : exec x s = (.ok a, s'))
    (f : α → Prog σ ε β) : exec (x >>= f) s = exec (f a) s' := by
  rw [exec_bind, h]

theorem exec_bind_error {x : Prog σ ε α} {s s' : σ} {e : ε} (h : exec x s = (.error e, s'))
    (f : α → Prog σ ε β) : exec (x >>= f) s = (.error e, s') := by
  rw [exec_bind, h]

theorem exec_tryCatch (x : Prog σ ε α) (h : ε → Prog σ ε α) (s : σ) :
    exec (tryCatch x h) s = match exec x s with
      | (.ok a, s') => (.ok a, s')
      | (.error e, s') => exec (h e) s' :=
  rfl

/-! ### Pre- and postconditions -/

/-- Run from `s`, the program `x` returns with `Q` or raises with `E`. -/
def Post (x : Prog σ ε α) (s : σ) (Q : α → σ → Prop) (E : ε → σ → Prop) : Prop :=
  match exec x s with
  | (.ok a, s') => Q a s'
  | (.error e, s') => E e s'

section Post

variable {s : σ} {Q Q' : α → σ → Prop} {E E' : ε → σ → Prop}

@[simp]
theorem post_pure {a : α} : Post (pure a : Prog σ ε α) s Q E ↔ Q a s := Iff.rfl

@[simp]
theorem post_throw {e : ε} : Post (throw e : Prog σ ε α) s Q E ↔ E e s := Iff.rfl

@[simp]
theorem post_get {Q : σ → σ → Prop} : Post (get : Prog σ ε σ) s Q E ↔ Q s s := Iff.rfl

@[simp]
theorem post_modify {f : σ → σ} {Q : Unit → σ → Prop} :
    Post (modify f : Prog σ ε Unit) s Q E ↔ Q () (f s) := Iff.rfl

@[simp]
theorem post_bind {x : Prog σ ε α} {f : α → Prog σ ε β} {Q : β → σ → Prop} :
    Post (x >>= f) s Q E ↔ Post x s (fun a s' => Post (f a) s' Q E) E := by
  unfold Post
  rw [exec_bind]
  rcases exec x s with ⟨_ | a, s'⟩
  · exact Iff.rfl
  · rcases exec (f a) s' with ⟨_ | _, _⟩ <;> exact Iff.rfl

@[simp]
theorem post_tryCatch {x : Prog σ ε α} {h : ε → Prog σ ε α} :
    Post (tryCatch x h) s Q E ↔ Post x s Q (fun e s' => Post (h e) s' Q E) := by
  unfold Post
  rw [exec_tryCatch]
  rcases exec x s with ⟨e | _, s'⟩
  · rcases exec (h e) s' with ⟨_ | _, _⟩ <;> exact Iff.rfl
  · exact Iff.rfl

/-- The rule of consequence. -/
theorem Post.imp {x : Prog σ ε α} (h : Post x s Q E) (hQ : ∀ a s', Q a s' → Q' a s')
    (hE : ∀ e s', E e s' → E' e s') : Post x s Q' E' := by
  unfold Post at h ⊢
  rcases hx : exec x s with ⟨e | a, s'⟩
  · rw [hx] at h
    exact hE e s' h
  · rw [hx] at h
    exact hQ a s' h

/-- Two specifications of one program. -/
theorem Post.and {x : Prog σ ε α} (h : Post x s Q E) (h' : Post x s Q' E') :
    Post x s (fun a s' => Q a s' ∧ Q' a s') (fun e s' => E e s' ∧ E' e s') := by
  unfold Post at h h' ⊢
  rcases hx : exec x s with ⟨e | a, s'⟩ <;> rw [hx] at h h' <;> exact ⟨h, h'⟩

/-- What holds whether the program returns or raises holds of the state that it leaves. -/
theorem Post.state {x : Prog σ ε α} {P : σ → Prop} (h : Post x s (fun _ => P) (fun _ => P)) :
    P (exec x s).2 := by
  unfold Post at h
  rcases hx : exec x s with ⟨e | a, s'⟩ <;> rw [hx] at h <;> exact h

/-- A program meets its own outcome. -/
theorem post_exec (x : Prog σ ε α) (s : σ) :
    Post x s (fun a s' => exec x s = (.ok a, s')) (fun e s' => exec x s = (.error e, s')) := by
  unfold Post
  rcases exec x s with ⟨e | a, s'⟩ <;> rfl

/-- A loop over a list keeps what every round keeps. -/
theorem Post.forM {I : σ → Prop} {f : β → Prog σ ε PUnit} {xs : List β}
    (hbody : ∀ x ∈ xs, ∀ s, I s → Post (f x) s (fun _ => I) E) (hs : I s) :
    Post (xs.forM f) s (fun _ => I) E := by
  induction xs generalizing s with
  | nil => exact hs
  | cons x xs ih =>
    show Post (f x >>= fun _ => xs.forM f) s _ _
    rw [post_bind]
    refine (hbody x (List.mem_cons_self ..) s hs).imp ?_ (fun _ _ h => h)
    intro _ s' hs'
    exact ih (fun y hy => hbody y (List.mem_cons_of_mem _ hy)) hs'

/-- The loop over a collection in the state: a round that returns has shortened the collection. -/
theorem Post.drain {I : σ → Prop} {xs : σ → List β} {body : β → Prog σ ε Unit}
    (hbody : ∀ s x rest, I s → xs s = x :: rest →
      Post (body x) s (fun _ s' => I s' ∧ (xs s').length ≤ rest.length) E) :
    ∀ (fuel : ℕ) (s : σ), I s → (xs s).length ≤ fuel →
      Post (drain xs body fuel) s (fun _ s' => I s' ∧ xs s' = []) E := by
  intro fuel
  induction fuel with
  | zero =>
    intro s hs hlen
    exact ⟨hs, List.length_eq_zero_iff.mp (Nat.le_zero.mp hlen)⟩
  | succ fuel ih =>
    intro s hs hlen
    unfold Prog.drain
    rw [post_bind, post_get]
    rcases hx : xs s with _ | ⟨x, rest⟩
    · exact ⟨hs, hx⟩
    · rw [hx, List.length_cons] at hlen
      simp only [post_bind]
      refine (hbody s x rest hs hx).imp ?_ (fun _ _ h => h)
      rintro _ s' ⟨hs', hlen'⟩
      exact ih s' hs' (by omega)

end Post

/-! ### Frames -/

/-- The program `x` leaves the part `f` of the state as it was, whether it returns or raises. -/
def Keeps (f : σ → β) (x : Prog σ ε α) : Prop :=
  ∀ s, f (exec x s).2 = f s

section Keeps

variable {δ : Type} {f : σ → δ}

theorem keeps_pure (a : α) : Keeps f (pure a : Prog σ ε α) := fun _ => rfl

theorem keeps_throw (e : ε) : Keeps f (throw e : Prog σ ε α) := fun _ => rfl

/-- Nothing runs after an exception. -/
theorem keeps_throw_bind (e : ε) (g : α → Prog σ ε β) : Keeps f (throw e >>= g) := fun _ => rfl

theorem keeps_get : Keeps f (get : Prog σ ε σ) := fun _ => rfl

theorem keeps_modify {g : σ → σ} (h : ∀ s, f (g s) = f s) : Keeps f (modify g : Prog σ ε Unit) := h

theorem Keeps.bind {x : Prog σ ε α} {g : α → Prog σ ε β} (hx : Keeps f x) (hg : ∀ a, Keeps f (g a)) :
    Keeps f (x >>= g) := by
  intro s
  have h := hx s
  rw [exec_bind]
  rcases hex : exec x s with ⟨e | a, s'⟩ <;> rw [hex] at h
  · exact h
  · exact (hg a s').trans h

/-- After reading the state. -/
theorem Keeps.get_bind {g : σ → Prog σ ε β} (hg : ∀ s, Keeps f (g s)) : Keeps f (get >>= g) :=
  keeps_get.bind hg

theorem Keeps.ite {c : Prop} [Decidable c] {x y : Prog σ ε α} (hx : Keeps f x) (hy : Keeps f y) :
    Keeps f (if c then x else y) := by
  split
  · exact hx
  · exact hy

theorem Keeps.tryCatch {x : Prog σ ε α} {h : ε → Prog σ ε α} (hx : Keeps f x)
    (hh : ∀ e, Keeps f (h e)) : Keeps f (tryCatch x h) := by
  intro s
  have hs := hx s
  rw [exec_tryCatch]
  rcases hex : exec x s with ⟨e | a, s'⟩ <;> rw [hex] at hs
  · exact (hh e s').trans hs
  · exact hs

theorem Keeps.forM {g : β → Prog σ ε PUnit} (hg : ∀ b, Keeps f (g b)) :
    ∀ xs : List β, Keeps f (xs.forM g)
  | [] => keeps_pure _
  | x :: xs => by
    show Keeps f (g x >>= fun _ => xs.forM g)
    exact (hg x).bind fun _ => Keeps.forM hg xs

theorem Keeps.drain {xs : σ → List β} {body : β → Prog σ ε Unit} (hbody : ∀ b, Keeps f (body b)) :
    ∀ fuel : ℕ, Keeps f (drain xs body fuel)
  | 0 => keeps_pure _
  | fuel + 1 => by
    unfold Prog.drain
    refine .get_bind fun s => ?_
    split
    · exact keeps_pure _
    · exact (hbody _).bind fun _ => Keeps.drain hbody fuel

/-- A program keeps what depends on a part that it keeps. -/
theorem Keeps.comp {γ : Type} {x : Prog σ ε α} (h : Keeps f x) (g : δ → γ) :
    Keeps (fun s => g (f s)) x :=
  fun s => congrArg g (h s)

/-- A frame condition as a postcondition. -/
theorem Keeps.post {x : Prog σ ε α} (h : Keeps f x) (s : σ) :
    Post x s (fun _ s' => f s' = f s) (fun _ s' => f s' = f s) := by
  have := h s
  unfold Post
  rcases hex : exec x s with ⟨e | a, s'⟩ <;> rw [hex] at this <;> exact this

end Keeps

/-! ### Invariants -/

/-- The program `x` keeps the invariant `I`, whether it returns or raises. -/
def Preserves (I : σ → Prop) (x : Prog σ ε α) : Prop :=
  ∀ s, I s → Post x s (fun _ => I) (fun _ => I)

section Preserves

variable {I : σ → Prop}

theorem preserves_pure (a : α) : Preserves I (pure a : Prog σ ε α) := fun _ h => h

theorem preserves_throw (e : ε) : Preserves I (throw e : Prog σ ε α) := fun _ h => h

theorem preserves_throw_bind (e : ε) (g : α → Prog σ ε β) : Preserves I (throw e >>= g) := fun _ h => h

theorem preserves_get : Preserves I (get : Prog σ ε σ) := fun _ h => h

theorem preserves_modify {g : σ → σ} (h : ∀ s, I s → I (g s)) :
    Preserves I (modify g : Prog σ ε Unit) := h

theorem Preserves.bind {x : Prog σ ε α} {g : α → Prog σ ε β} (hx : Preserves I x)
    (hg : ∀ a, Preserves I (g a)) : Preserves I (x >>= g) := by
  intro s hs
  rw [post_bind]
  exact (hx s hs).imp (fun a s' h => hg a s' h) (fun _ _ h => h)

theorem Preserves.get_bind {g : σ → Prog σ ε β} (hg : ∀ s, Preserves I (g s)) :
    Preserves I (get >>= g) :=
  preserves_get.bind hg

theorem Preserves.ite {c : Prop} [Decidable c] {x y : Prog σ ε α} (hx : Preserves I x)
    (hy : Preserves I y) : Preserves I (if c then x else y) := by
  split
  · exact hx
  · exact hy

theorem Preserves.tryCatch {x : Prog σ ε α} {h : ε → Prog σ ε α} (hx : Preserves I x)
    (hh : ∀ e, Preserves I (h e)) : Preserves I (tryCatch x h) := by
  intro s hs
  rw [post_tryCatch]
  exact (hx s hs).imp (fun _ _ h => h) (fun e s' h => hh e s' h)

theorem Preserves.forM {g : β → Prog σ ε PUnit} (hg : ∀ b, Preserves I (g b)) (xs : List β) :
    Preserves I (xs.forM g) :=
  fun _ hs => Post.forM (fun x _ s h => hg x s h) hs

theorem Preserves.drain {xs : σ → List β} {body : β → Prog σ ε Unit}
    (hbody : ∀ b, Preserves I (body b)) : ∀ fuel : ℕ, Preserves I (drain xs body fuel)
  | 0 => preserves_pure _
  | fuel + 1 => by
    unfold Prog.drain
    refine .get_bind fun s => ?_
    split
    · exact preserves_pure _
    · exact (hbody _).bind fun _ => Preserves.drain hbody fuel

/-- A program that leaves a part alone keeps the invariants of this part. -/
theorem Keeps.preserves {δ : Type} {f : σ → δ} {x : Prog σ ε α} (h : Keeps f x) (J : δ → Prop) :
    Preserves (fun s => J (f s)) x := by
  intro s hs
  exact (h.post s).imp (fun _ _ heq => heq.symm ▸ hs) (fun _ _ heq => heq.symm ▸ hs)

end Preserves

/-! ### Exceptions -/

/-- Whatever the program `x` raises meets `E`. -/
def Throws (E : ε → Prop) (x : Prog σ ε α) : Prop :=
  ∀ s, Post x s (fun _ _ => True) (fun e _ => E e)

section Throws

variable {E : ε → Prop}

theorem throws_pure (a : α) : Throws E (pure a : Prog σ ε α) := fun _ => trivial

theorem throws_throw {e : ε} (he : E e) : Throws E (throw e : Prog σ ε α) := fun _ => he

theorem throws_throw_bind {e : ε} (he : E e) (g : α → Prog σ ε β) : Throws E (throw e >>= g) := fun _ => he

theorem throws_modify (g : σ → σ) : Throws E (modify g : Prog σ ε Unit) := fun _ => trivial

theorem Throws.bind {x : Prog σ ε α} {g : α → Prog σ ε β} (hx : Throws E x) (hg : ∀ a, Throws E (g a)) :
    Throws E (x >>= g) := by
  intro s
  rw [post_bind]
  exact (hx s).imp (fun a s' _ => hg a s') (fun _ _ h => h)

theorem Throws.get_bind {g : σ → Prog σ ε β} (hg : ∀ s, Throws E (g s)) : Throws E (get >>= g) :=
  fun s => hg s s

theorem Throws.mono {E' : ε → Prop} {x : Prog σ ε α} (h : Throws E x) (himp : ∀ e, E e → E' e) :
    Throws E' x :=
  fun s => (h s).imp (fun _ _ h => h) (fun e _ => himp e)

theorem Throws.drain {xs : σ → List β} {body : β → Prog σ ε Unit} (hbody : ∀ b, Throws E (body b)) :
    ∀ fuel : ℕ, Throws E (drain xs body fuel)
  | 0 => throws_pure _
  | fuel + 1 => by
    unfold Prog.drain
    refine .get_bind fun s => ?_
    split
    · exact throws_pure _
    · exact (hbody _).bind fun _ => Throws.drain hbody fuel

end Throws

end Prog

end Nica.Lib
