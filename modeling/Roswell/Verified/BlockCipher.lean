import Mathlib.Data.List.Basic

/-!
# Block ciphers

A Feistel network runs backwards when it is given its round keys in reverse and
its halves exchanged, whatever the round function is.  Cipher block chaining
inverts, block for block, when the cipher does, and leaves the last block of
ciphertext as its chaining value.
-/

namespace Roswell.Verified.BlockCipher

section Feistel

variable {α κ : Type} (op : α → α → α) (f : κ → α → α)

def round (b : α × α) (k : κ) : α × α := (b.2, op (f k b.2) b.1)

def rounds (ks : List κ) (b : α × α) : α × α := ks.foldl (round op f) b

theorem rounds_reverse (hop : ∀ x y, op x (op x y) = y) (ks : List κ) (b : α × α) :
    rounds op f ks.reverse (rounds op f ks b).swap = b.swap := by
  induction ks generalizing b with
  | nil => rfl
  | cons k ks ih =>
    rw [rounds, List.reverse_cons, List.foldl_append]
    show round op f (rounds op f ks.reverse (rounds op f ks (round op f b k)).swap) k = b.swap
    rw [ih]
    exact congrArg (Prod.mk b.2) (hop _ _)

end Feistel

section Chaining

variable {β : Type} (op : β → β → β) (e d : β → β)

/-- The ciphertext, and the chaining value that is left. -/
def cbcEncrypt (chain : β) : List β → List β × β
  | [] => ([], chain)
  | x :: l =>
    let y := e (op x chain)
    (y :: (cbcEncrypt y l).1, (cbcEncrypt y l).2)

def cbcDecrypt (chain : β) : List β → List β × β
  | [] => ([], chain)
  | y :: l => (op (d y) chain :: (cbcDecrypt y l).1, (cbcDecrypt y l).2)

variable {op e d} {chain : β}

theorem cbcDecrypt_cbcEncrypt (hop : ∀ x y, op (op x y) y = x) (hd : ∀ x, d (e x) = x)
    (chain : β) (l : List β) :
    (cbcDecrypt op d chain (cbcEncrypt op e chain l).1).1 = l := by
  induction l generalizing chain with
  | nil => rfl
  | cons x l ih =>
    rw [cbcEncrypt, cbcDecrypt, ih, hd, hop]

/-- The chaining value is the last block of ciphertext. -/
theorem cbcEncrypt_chain (chain : β) (l : List β) :
    (cbcEncrypt op e chain l).2 = (cbcEncrypt op e chain l).1.getLastD chain := by
  induction l generalizing chain with
  | nil => rfl
  | cons x l ih =>
    rw [cbcEncrypt]
    dsimp only
    rw [ih, List.getLastD_cons]

theorem cbcDecrypt_chain (chain : β) (l : List β) :
    (cbcDecrypt op d chain l).2 = l.getLastD chain := by
  induction l generalizing chain with
  | nil => rfl
  | cons y l ih =>
    rw [cbcDecrypt]
    dsimp only
    rw [ih, List.getLastD_cons]

end Chaining

end Roswell.Verified.BlockCipher
