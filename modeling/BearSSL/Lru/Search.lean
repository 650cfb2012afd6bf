import BearSSL.Lru.Store

namespace BearSSL.SessionCacheLru

variable (cc : SessionCacheLru)

-- The loop shared by `find_node` and the two loops of `find_replacement_node`: at node `x`,
-- reached through the link at address `al`, `dir` says to stop or which link to follow.
-- Each iteration spends one unit of fuel; `none` is a loop still running when it runs out.
def descend (dir : UInt32 → Option Nat) : Nat → UInt32 → UInt32 → Option (UInt32 × UInt32)
  | 0, _, _ => none
  | fuel + 1, x, al =>
    match dir x with
    | none => some (x, al)
    | some off => descend dir fuel (cc.get off x) (x + off.toUInt32)

def findNode.dir (id : SessionId) (x : UInt32) : Option Nat :=
  if x = addrNull then none
  else match memcmp id.bytes (cc.key x).bytes with
    | .lt => some treeLeftOff
    | .eq => none
    | .gt => some treeRightOff

-- `find_node`: the node with masked ID `id`, or `addrNull`, and the address of the last link
-- followed, `addrNull` when that is the root.
def findNode (fuel : Nat) (id : SessionId) : Option (UInt32 × UInt32) :=
  cc.descend (findNode.dir cc id) fuel cc.root addrNull

def findReplacementNode.dir (off : Nat) (y : UInt32) : Option Nat :=
  if cc.get off y = addrNull then none else some off

-- `find_replacement_node`: the rightmost left descendant of `x`, else its leftmost right
-- descendant, else `addrNull`; with the address of the link that points to it.
def findReplacementNode (fuel : Nat) (x : UInt32) : Option (UInt32 × UInt32) :=
  if cc.getLeft x ≠ addrNull then
    cc.descend (findReplacementNode.dir cc treeRightOff) fuel (cc.getLeft x)
      (x + treeLeftOff.toUInt32)
  else if cc.getRight x ≠ addrNull then
    cc.descend (findReplacementNode.dir cc treeLeftOff) fuel (cc.getRight x)
      (x + treeRightOff.toUInt32)
  else some (addrNull, addrNull)

-- The states `(x, al)` a descent passes through.
inductive Descends (dir : UInt32 → Option Nat) : UInt32 × UInt32 → UInt32 × UInt32 → Prop
  | refl : Descends dir s s
  | tail : Descends dir s (x, al) → dir x = some off →
      Descends dir s (cc.get off x, x + off.toUInt32)

variable {cc} {dir : UInt32 → Option Nat} {x al : UInt32} {r : UInt32 × UInt32}

@[simp] theorem descend_zero : cc.descend dir 0 x al = none := rfl

theorem descend_succ : cc.descend dir (fuel + 1) x al =
    match dir x with
    | none => some (x, al)
    | some off => cc.descend dir fuel (cc.get off x) (x + off.toUInt32) :=
  rfl

theorem descend_of_stop (h : dir x = none) : cc.descend dir (fuel + 1) x al = some (x, al) := by
  simp [descend_succ, h]

theorem descend_of_step (h : dir x = some off) :
    cc.descend dir (fuel + 1) x al = cc.descend dir fuel (cc.get off x) (x + off.toUInt32) := by
  simp [descend_succ, h]

theorem descend_mono (h : cc.descend dir fuel x al = some r) (hf : fuel ≤ fuel') :
    cc.descend dir fuel' x al = some r := by
  induction fuel generalizing fuel' x al with
  | zero => simp at h
  | succ n ih =>
    obtain ⟨m, rfl⟩ : ∃ m, fuel' = m + 1 := ⟨fuel' - 1, by omega⟩
    cases hd : dir x with
    | none => rwa [descend_of_stop hd] at h ⊢
    | some off => rw [descend_of_step hd] at h ⊢; exact ih h (by omega)

theorem Descends.head (hd : dir x = some off)
    (h : cc.Descends dir (cc.get off x, x + off.toUInt32) r) : cc.Descends dir (x, al) r := by
  induction h with
  | refl => exact .tail .refl hd
  | tail _ ho ih => exact .tail ih ho

-- Every state a descent passes through satisfies an invariant of its steps.
theorem Descends.inv (P : UInt32 × UInt32 → Prop)
    (hs : ∀ x al off, P (x, al) → dir x = some off → P (cc.get off x, x + off.toUInt32))
    (h : cc.Descends dir s r) (h₀ : P s) : P r := by
  induction h with
  | refl => exact h₀
  | tail _ ho ih => exact hs _ _ _ ih ho

-- A descent ends in a state it passes through.
theorem descend_descends (h : cc.descend dir fuel x al = some r) : cc.Descends dir (x, al) r := by
  induction fuel generalizing x al with
  | zero => simp at h
  | succ n ih =>
    cases hd : dir x with
    | none => rw [descend_of_stop hd] at h; cases h; exact .refl
    | some off => rw [descend_of_step hd] at h; exact (ih h).head hd

-- A descent ends where `dir` says to stop.
theorem descend_stop (h : cc.descend dir fuel x al = some r) : dir r.1 = none := by
  induction fuel generalizing x al with
  | zero => simp at h
  | succ n ih =>
    cases hd : dir x with
    | none => rw [descend_of_stop hd] at h; cases h; exact hd
    | some off => rw [descend_of_step hd] at h; exact ih h

-- A descent reads `dir` and the links it follows only: from a node of a set `P` closed under
-- the steps, two states that agree there descend alike.
theorem descend_congr {cc' : SessionCacheLru} {dir' : UInt32 → Option Nat} (P : UInt32 → Prop)
    (hs : ∀ y, P y → dir' y = dir y ∧
      ∀ off, dir y = some off → cc'.get off y = cc.get off y ∧ P (cc.get off y))
    (hx : P x) : cc'.descend dir' fuel x al = cc.descend dir fuel x al := by
  induction fuel generalizing x al with
  | zero => rfl
  | succ n ih =>
    obtain ⟨hd, hg⟩ := hs x hx
    cases h : dir x with
    | none => rw [descend_of_stop (hd.trans h), descend_of_stop h]
    | some off =>
      obtain ⟨he, hp⟩ := hg off h
      rw [descend_of_step (hd.trans h), descend_of_step h, he, ih hp]

-- A node whose link leads back to itself traps the descent.
theorem descend_eq_none_of_self_link (hd : dir x = some off) (hx : cc.get off x = x) :
    cc.descend dir fuel x al = none := by
  induction fuel generalizing al with
  | zero => rfl
  | succ n ih => rw [descend_of_step hd, hx, ih]

end BearSSL.SessionCacheLru
