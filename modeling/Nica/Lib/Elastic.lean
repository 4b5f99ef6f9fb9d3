import Mathlib.Data.List.Zip

/-!
# Elastic registers

A register of an elastic pipeline is a valid bit and a value; `slot v x` is what it holds, as a
list of at most one element.  `slot_transfer` is one clock of such a register: with `rdy` from the
stage behind it and the enable `e` of the stage in front, what it held and what enters is what
leaves and what it holds afterwards, in order.  Chaining it stage by stage gives the conservation
of a whole pipeline.
-/

namespace Nica.Lib

variable {α β γ δ : Type*}

/-- `[x]` when the valid bit is set, else `[]`. -/
def slot (v : Bool) (x : α) : List α := if v then [x] else []

@[simp] theorem slot_false (x : α) : slot false x = [] := rfl
@[simp] theorem slot_true (x : α) : slot true x = [x] := rfl

@[simp]
theorem length_slot (v : Bool) (x : α) : (slot v x).length = v.toNat := by
  cases v <;> rfl

/-- **One clock of an elastic register**: the enable `e` is raised only when the register is free
or is being emptied. -/
theorem slot_transfer {v rdy e : Bool} (he : e = true → (!v || rdy) = true) (x y : α) :
    slot v x ++ slot e y = slot (v && rdy) x ++ slot (e || (v && !rdy)) (if e then y else x) := by
  cases v <;> cases rdy <;> cases e <;> simp at he ⊢

theorem zipWith_append_slot (f : α → β → γ) {as : List α} {bs : List β}
    (h : as.length = bs.length) (v : Bool) (a : α) (b : β) :
    List.zipWith f (as ++ slot v a) (bs ++ slot v b) = List.zipWith f as bs ++ slot v (f a b) := by
  rw [List.zipWith_append h]
  cases v <;> rfl

/-- Zipping `as` with `bs` is mapping `as` through its own companions `g` exactly when `bs` and
the companions agree under `v`, which is all that `f` depends on. -/
theorem zipWith_eq_map_iff {f : α → β → γ} {g : α → β} {v : β → δ}
    (hf : ∀ a b b', f a b = f a b' ↔ v b = v b') :
    ∀ {as : List α} {bs : List β}, as.length = bs.length →
      (List.zipWith f as bs = as.map (fun a => f a (g a)) ↔
        bs.map v = as.map (fun a => v (g a)))
  | [], [], _ => by simp
  | a :: as, b :: bs, h => by
    rw [List.zipWith_cons_cons, List.map_cons, List.map_cons, List.map_cons, List.cons.injEq,
      List.cons.injEq, hf, zipWith_eq_map_iff hf (Nat.succ.inj h)]

end Nica.Lib
