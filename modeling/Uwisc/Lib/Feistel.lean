import Mathlib.Data.List.Basic

/-!
# Feistel networks

A block of two halves goes through rounds: the right half becomes the left one, and the left one,
mixed with a function of the right one and of the key of the round, the right one. The function
need not be invertible: the rounds are undone by themselves, with the keys in reverse order and the
halves exchanged (`feistel_reverse`).
-/

namespace Uwisc.Lib

variable {α κ : Type*} {mix : α → α → α} {F : κ → α → α}

/-- A round with one of the keys. -/
def feistelRound (mix : α → α → α) (F : κ → α → α) (x : α × α) (k : κ) : α × α := (x.2, mix x.1 (F k x.2))

/-- The rounds. -/
def feistel (mix : α → α → α) (F : κ → α → α) (ks : List κ) (x : α × α) : α × α :=
  ks.foldl (feistelRound mix F) x

theorem feistelRound_swap (hmix : ∀ a b, mix (mix a b) b = a) (k : κ) (x : α × α) :
    feistelRound mix F (feistelRound mix F x k).swap k = x.swap := by
  simp only [feistelRound, Prod.fst_swap, Prod.snd_swap, hmix]
  rfl

/-- The rounds are undone in reverse order. -/
theorem feistel_reverse (hmix : ∀ a b, mix (mix a b) b = a) (ks : List κ) (x : α × α) :
    feistel mix F ks.reverse (feistel mix F ks x).swap = x.swap := by
  induction ks generalizing x with
  | nil => rfl
  | cons k ks ih =>
    have hfst : feistel mix F (k :: ks) x = feistel mix F ks (feistelRound mix F x k) := rfl
    rw [List.reverse_cons, hfst, feistel, List.foldl_append]
    have hrs := ih (feistelRound mix F x k)
    rw [feistel] at hrs
    rw [hrs]
    exact feistelRound_swap hmix k x

end Uwisc.Lib
