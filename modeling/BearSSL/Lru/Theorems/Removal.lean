import BearSSL.Lru.Theorems.Fuel
import BearSSL.Lru.Theorems.Invariant
import BearSSL.Lru.Theorems.Replacement

namespace BearSSL

namespace SessionCacheLru

variable {cc : SessionCacheLru} {t : Tree} {fuel : Nat} {x : UInt32}

-- `remove_node` on a leaf `x` of a search tree: `find_replacement_node` returns null for both
-- the node and its link, and `set_link` of a null link writes the root.
theorem removeNode_of_leaf (ht : cc.SearchTree t) (hf : t.nodes.length < fuel) (hx : x ∈ t.nodes)
    (hl : cc.getLeft x = addrNull) (hr : cc.getRight x = addrNull) :
    ∃ alx, cc.removeNode fuel x = some ((cc.setLink addrNull addrNull).setLink alx addrNull) := by
  obtain ⟨c, -, -, -, hfind, -, -⟩ := findNode_hit ht hf hx
  have hrep : cc.findReplacementNode fuel x = some (addrNull, addrNull) := by
    simp [findReplacementNode, hl, hr]
  exact ⟨c.link addrNull, by simp [removeNode, hfind, hrep, bind, pure]⟩

theorem setLink_setLink_root : ((cc.setLink addrNull addrNull).setLink w addrNull).root = addrNull := by
  rw [setLink_root, setLink_root]; split <;> rfl

-- `remove_node` on a leaf of a search tree nulls the root: every other entry leaves the tree.
theorem removeNode_leaf_nulls_root (ht : cc.SearchTree t) (hf : t.nodes.length < fuel)
    (hx : x ∈ t.nodes) (hl : cc.getLeft x = addrNull) (hr : cc.getRight x = addrNull) :
    ∃ cc', cc.removeNode fuel x = some cc' ∧ cc'.root = addrNull :=
  have ⟨_, h⟩ := removeNode_of_leaf ht hf hx hl hr
  ⟨_, h, setLink_setLink_root⟩

-- The link to the hole of a search tree's context holds the subtree there.
theorem SearchTree.rep_fill {c : Ctx} {s : Tree} (ht : cc.SearchTree (c.fill s)) :
    cc.Rep (cc.readLink (c.link addrNull)) s :=
  (readLink_addrNull ▸ ht.rep : cc.Rep (cc.readLink addrNull) _).fill_link fun z hz =>
    ht.entry z (Ctx.mem_fill.mpr (.inr hz))

-- `remove_node`'s two writes on a search tree `c.fill (d.fill s)`: null the link to `s`, then
-- hang `s` at the link to `d.fill s`. The tree has `s` in place of `d.fill s`.
theorem SearchTree.replace {c d : Ctx} {s : Tree} (ht : cc.SearchTree (c.fill (d.fill s))) :
    ((cc.setLink ((c.comp d).link addrNull) addrNull).setLink (c.link addrNull) s.root).SearchTree
      (c.fill s) := by
  have hC : cc.SearchTree ((c.comp d).fill s) := by rw [Ctx.fill_comp]; exact ht
  obtain ⟨-, hCn, hsC⟩ := Ctx.nodup_fill hC.nodup
  obtain ⟨-, hcn, huc⟩ := Ctx.nodup_fill ht.nodup
  have hCe : ∀ z ∈ (c.comp d).nodes, IsEntry z := fun z hz => hC.entry z (Ctx.mem_fill.mpr (.inr hz))
  have hce : ∀ z ∈ c.nodes, IsEntry z := fun z hz => ht.entry z (Ctx.mem_fill.mpr (.inr hz))
  have hse : ∀ z ∈ s.nodes, IsEntry z := fun z hz => hC.entry z (Ctx.mem_fill.mpr (.inl hz))
  have hsub : (c.fill s).nodes.Sublist (c.fill (d.fill s)).nodes := by
    rw [Ctx.nodes_fill, Ctx.nodes_fill]
    exact ((List.Sublist.refl _).append (d.sublist_fill s)).append (List.Sublist.refl _)
  -- the first write cuts `s` off, the second hangs it in place of `d.fill s`
  have h₁ := (readLink_addrNull ▸ hC.rep : cc.Rep (cc.readLink addrNull) _).fill_setLink hCn hCe
    (.inl rfl) (.nil : (cc.setLink ((c.comp d).link addrNull) addrNull).Rep addrNull .nil)
  rw [Ctx.fill_comp] at h₁
  have hs : cc.Rep s.root s := hC.rep_fill.root_eq ▸ hC.rep_fill
  have h₂ := h₁.fill_setLink hcn hce (.inl rfl)
    ((hs.setLink hse fun z hz => (c.comp d).not_linkOf hCe (hse z hz) (hsC z hz)).setLink hse
      fun z hz => c.not_linkOf hce (hse z hz) (huc z ((d.sublist_fill s).subset hz)))
  have hk : ((cc.setLink ((c.comp d).link addrNull) addrNull).setLink (c.link addrNull) s.root).key =
      cc.key := funext fun _ => by simp only [key_setLink]
  refine ⟨readLink_addrNull ▸ h₂, ?_, fun z hz => ht.entry z (hsub.subset hz)⟩
  rw [hk]; exact ht.sorted.sublist (hsub.map cc.key)

-- `remove_node` of `x` whose replacement is the root of `s`, at the hole of `d` below `x`.
theorem removeNode_of_replacement {c d : Ctx} {s : Tree} (ht : cc.SearchTree (c.fill (d.fill s)))
    (hfind : cc.findNode fuel (cc.key x) = some (x, c.link addrNull))
    (hrep : cc.findReplacementNode fuel x = some (s.root, (c.comp d).link addrNull)) :
    cc.Rep s.root s ∧ ∃ cc', cc.removeNode fuel x = some cc' ∧ cc'.SearchTree (c.fill s) := by
  have hC : cc.SearchTree ((c.comp d).fill s) := by rw [Ctx.fill_comp]; exact ht
  exact ⟨hC.rep_fill.root_eq ▸ hC.rep_fill, _, by simp [removeNode, hfind, hrep, bind, pure],
    ht.replace⟩

-- `remove_node` on a node `x` of a search tree that has a child: the subtree of the
-- replacement `y` that `find_replacement_node` returns takes the place of the subtree of `x`,
-- and every other node under `x` leaves the tree.
theorem removeNode_keeps_replacement (ht : cc.SearchTree t) (hf : t.nodes.length < fuel)
    (hx : x ∈ t.nodes) (hc : cc.getLeft x ≠ addrNull ∨ cc.getRight x ≠ addrNull) :
    ∃ (c : Ctx) (l r s : Tree) (y aly : UInt32) (cc' : SessionCacheLru),
      t = c.fill (.node l x r) ∧ cc.findReplacementNode fuel x = some (y, aly) ∧ cc.Rep y s ∧
      cc.removeNode fuel x = some cc' ∧ cc'.SearchTree (c.fill s) := by
  obtain ⟨c, l, r, rfl, hfind, -, -⟩ := findNode_hit ht hf hx
  obtain ⟨-, -, hl, hr⟩ := ht.rep_fill.node_inv
  by_cases hl0 : l = .nil
  case neg =>
    -- the largest node of the left subtree, at the hole of `c'` there
    obtain ⟨c', l', y, rfl, hrep, -⟩ := findReplacementNode_of_left ht hf hl hl0
    obtain ⟨hs, cc', hrm, ht'⟩ := @removeNode_of_replacement cc fuel x c (.left x r c')
      (.node l' y .nil) ht hfind (by rw [Ctx.link_comp]; exact hrep)
    exact ⟨c, _, r, _, y, _, cc', rfl, hrep, hs, hrm, ht'⟩
  case pos =>
    -- no left subtree: the least node of the right one, at the hole of `c'` there
    subst hl0
    have hr0 : r ≠ .nil := fun e => hc.elim (· (hl.nil_iff.mp rfl)) (· (hr.nil_iff.mp e))
    obtain ⟨c', r', y, rfl, hrep, -⟩ := findReplacementNode_of_right ht hf hl hr rfl hr0
    obtain ⟨hs, cc', hrm, ht'⟩ := @removeNode_of_replacement cc fuel x c (.right .nil x c')
      (.node .nil y r') ht hfind (by rw [Ctx.link_comp]; exact hrep)
    exact ⟨c, _, _, _, y, _, cc', rfl, hrep, hs, hrm, ht'⟩

end SessionCacheLru

theorem twoSaved_removeNode_nulls_root : twoSaved.SearchTree twoSavedTree ∧
    twoSavedTree.nodes.length < 3 ∧ 100 ∈ twoSavedTree.nodes ∧ twoSaved.getLeft 100 = addrNull ∧
    twoSaved.getRight 100 = addrNull ∧ ∃ cc', twoSaved.removeNode 3 100 = some cc' ∧ cc'.root = addrNull :=
  ⟨twoSaved_searchTree, by decide, by decide, by decide, by decide,
    SessionCacheLru.removeNode_leaf_nulls_root twoSaved_searchTree (by decide) (by decide) (by decide)
      (by decide)⟩

-- In the tree of sessions 0 and 1, the root 0 has the right child 100 only: removing it leaves
-- the tree of 100 alone.
theorem twoSaved_removeNode_keeps_replacement : twoSaved.SearchTree twoSavedTree ∧
    twoSavedTree.nodes.length < 3 ∧ 0 ∈ twoSavedTree.nodes ∧
    (twoSaved.getLeft 0 ≠ addrNull ∨ twoSaved.getRight 0 ≠ addrNull) ∧
    ∃ (c : Ctx) (l r s : Tree) (y aly : UInt32) (cc' : SessionCacheLru),
      twoSavedTree = c.fill (.node l 0 r) ∧ twoSaved.findReplacementNode 3 0 = some (y, aly) ∧
      twoSaved.Rep y s ∧ twoSaved.removeNode 3 0 = some cc' ∧ cc'.SearchTree (c.fill s) :=
  ⟨twoSaved_searchTree, by decide, by decide, by decide,
    SessionCacheLru.removeNode_keeps_replacement twoSaved_searchTree (by decide) (by decide)
      (by decide)⟩

open SessionCacheLru

theorem twoSaved_removeNode_loses_root : twoSaved.SearchTree twoSavedTree ∧
    ∃ cc', twoSaved.removeNode 3 100 = some cc' ∧ ¬∃ t', cc'.SearchTree t' ∧ t'.nodes = [0] := by
  obtain ⟨alx, h⟩ := @removeNode_of_leaf twoSaved _ 3 100 twoSaved_searchTree (by decide)
    (by decide) (by decide) (by decide)
  refine ⟨twoSaved_searchTree, _, h, fun ⟨t', ht', hn⟩ => ?_⟩
  rw [(ht'.rep.nil_iff).mpr setLink_setLink_root] at hn
  cases hn

-- In a block of two entries: save sessions 0 and 1, load 0, save 2. The last save evicts the
-- entry of session 1, a leaf.
def evictLeaf : SessionCacheLru :=
  ((run id 4 (init Store.blank 200)
    [.save (.ofByte 0), .save (.ofByte 1), .load (.ofByte 0), .save (.ofByte 2)]).get (by decide)).2

theorem evictLeaf_loses_entry : Reachable id evictLeaf ∧
    ¬∃ t, evictLeaf.SearchTree t ∧ ∀ x, x ∈ t.nodes ↔ Allocated evictLeaf.storePtr x := by
  refine ⟨⟨_, exec_of_run (by decide) _⟩, fun ⟨t, ht, hmem⟩ => ?_⟩
  have hrep : evictLeaf.Rep evictLeaf.root (.node .nil 100 .nil) := by
    rw [show evictLeaf.root = 100 by decide]
    exact .node (by decide) ((show evictLeaf.getLeft 100 = addrNull by decide) ▸ .nil)
      ((show evictLeaf.getRight 100 = addrNull by decide) ▸ .nil)
  rw [ht.rep.unique hrep] at hmem
  exact absurd ((hmem 0).mpr (by decide)) (by decide)

-- In a block of three entries: save sessions 4, 3, 5, load 4, save 2, save 0, all IDs distinct.
def evictCycle : SessionCacheLru :=
  ((run id 4 (init Store.blank 300) [.save (.ofByte 4), .save (.ofByte 3), .save (.ofByte 5),
    .load (.ofByte 4), .save (.ofByte 2), .save (.ofByte 0)]).get (by decide)).2

theorem evictCycle_save_diverges : Reachable id evictCycle ∧
    ∀ fuel, evictCycle.lruSave id fuel (.ofByte 1) = none := by
  refine ⟨⟨_, exec_of_run (by decide) _⟩, fun fuel => ?_⟩
  rcases h : evictCycle.lruSave id fuel (.ofByte 1) with _ | ⟨cc', slot⟩
  · rfl
  exfalso
  rcases lruSave_eq_some h with ⟨hl, -⟩ | ⟨-, f, al, hf, ⟨hf0, -⟩ | ⟨-, c, x, g, alx, hr, hg, -⟩⟩
  · exact absurd hl (by decide)
  · exact hf0 (congrArg Prod.fst (findNode_unique hf
      (show ({ evictCycle with initDone := true } : SessionCacheLru).findNode 4
        (id (Params.ofByte 1).sessionId) = some (addrNull, 296) by decide)))
  · -- the eviction has linked the root to itself
    obtain ⟨r, h4⟩ := Option.isSome_iff_exists.mp
      (by decide : (({ evictCycle with initDone := true } : SessionCacheLru).makeRoom 4).isSome)
    have hd : (({ evictCycle with initDone := true } : SessionCacheLru).makeRoom 4).map
        (fun r => findNode.dir r.1 (id (Params.ofByte 1).sessionId) r.1.root) =
        some (some treeRightOff) := by decide
    have hx : (({ evictCycle with initDone := true } : SessionCacheLru).makeRoom 4).map
        (fun r => (r.1.root, r.1.get treeRightOff r.1.root)) = some (200, 200) := by decide
    rw [h4, ← makeRoom_unique hr h4, Option.map_some', Option.some.injEq] at hd hx
    obtain ⟨h₁, h₂⟩ := Prod.mk.inj hx
    rw [findNode, descend_eq_none_of_self_link hd (h₂.trans h₁.symm)] at hg
    cases hg

end BearSSL
