import BearSSL.Lru.Theorems.FindNode

namespace BearSSL

theorem Tree.exists_fill_of_mem {t : Tree} (h : x ∈ t.nodes) : ∃ (c : Ctx) (l r : Tree), t = c.fill (.node l x r) := by
  induction t with
  | nil => simp at h
  | node l y r ihl ihr =>
    simp only [Tree.nodes_node, List.mem_append, List.mem_cons] at h
    rcases h with h | rfl | h
    · obtain ⟨c, l', r', rfl⟩ := ihl h; exact ⟨.left y r c, l', r', rfl⟩
    · exact ⟨.top, l, r, rfl⟩
    · obtain ⟨c, l', r', rfl⟩ := ihr h; exact ⟨.right l y c, l', r', rfl⟩

theorem Ctx.sublist_fill (c : Ctx) (s : Tree) : s.nodes.Sublist (c.fill s).nodes := by
  rw [c.nodes_fill]; exact (List.sublist_append_right _ _).trans (List.sublist_append_left _ _)

theorem le_last_of_pairwise {f : UInt32 → SessionId} {A : List UInt32}
    (h : ((A ++ [y]).map f).Pairwise (· < ·)) : ∀ z ∈ A ++ [y], f z ≤ f y := by
  simp only [List.map_append, List.map_cons, List.map_nil, List.pairwise_append, List.mem_map,
    List.mem_singleton, forall_exists_index, and_imp, forall_apply_eq_imp_iff₂] at h
  simp only [List.mem_append, List.mem_singleton]
  rintro z (hz | rfl)
  exacts [(h.2.2 z hz _ rfl).le, le_rfl]

theorem first_le_of_pairwise {f : UInt32 → SessionId} {A : List UInt32}
    (h : ((y :: A).map f).Pairwise (· < ·)) : ∀ z ∈ y :: A, f y ≤ f z := by
  simp only [List.map_cons, List.pairwise_cons, List.mem_map, forall_exists_index, and_imp,
    forall_apply_eq_imp_iff₂] at h
  rintro z (_ | ⟨_, hz⟩)
  exacts [le_rfl, (h.1 z hz).le]

namespace SessionCacheLru

variable {cc : SessionCacheLru} {t : Tree} {x y al : UInt32}

theorem findReplacementNode.dir_right : findReplacementNode.dir cc treeRightOff y =
    if cc.getRight y = addrNull then none else some treeRightOff :=
  rfl

theorem findReplacementNode.dir_left : findReplacementNode.dir cc treeLeftOff y =
    if cc.getLeft y = addrNull then none else some treeLeftOff :=
  rfl

-- The descent along the right links of a represented nonempty tree stops at its last node.
theorem descend_right_spine (h : cc.Rep y t) (ht : t ≠ .nil) (hf : t.nodes.length < fuel) (al : UInt32) :
    ∃ (c : Ctx) (l : Tree) (z : UInt32), t = c.fill (.node l z .nil) ∧ c.post = [] ∧
      cc.descend (findReplacementNode.dir cc treeRightOff) fuel y al = some (z, c.link al) := by
  induction h generalizing al fuel with
  | nil => exact absurd rfl ht
  | @node y l r hy _ hr _ ihr =>
    obtain ⟨n, rfl⟩ : ∃ n, fuel = n + 1 := ⟨fuel - 1, by omega⟩
    simp only [Tree.nodes_node, List.length_append, List.length_cons] at hf
    by_cases hr0 : r = .nil
    · subst hr0
      exact ⟨.top, l, y, rfl, rfl, descend_of_stop (by
        rw [findReplacementNode.dir_right, if_pos (hr.nil_iff.mp rfl)])⟩
    · obtain ⟨c, l', z, rfl, hc, hd⟩ := @ihr n hr0 (by omega) (y + treeRightOff.toUInt32)
      refine ⟨.right l y c, l', z, rfl, hc, ?_⟩
      rwa [descend_of_step (show findReplacementNode.dir cc treeRightOff y = some treeRightOff by
        rw [findReplacementNode.dir_right, if_neg (mt hr.nil_iff.mpr hr0)])]

-- The descent along the left links of a represented nonempty tree stops at its first node.
theorem descend_left_spine (h : cc.Rep y t) (ht : t ≠ .nil) (hf : t.nodes.length < fuel) (al : UInt32) :
    ∃ (c : Ctx) (r : Tree) (z : UInt32), t = c.fill (.node .nil z r) ∧ c.pre = [] ∧
      cc.descend (findReplacementNode.dir cc treeLeftOff) fuel y al = some (z, c.link al) := by
  induction h generalizing al fuel with
  | nil => exact absurd rfl ht
  | @node y l r hy hl _ ihl _ =>
    obtain ⟨n, rfl⟩ : ∃ n, fuel = n + 1 := ⟨fuel - 1, by omega⟩
    simp only [Tree.nodes_node, List.length_append, List.length_cons] at hf
    by_cases hl0 : l = .nil
    · subst hl0
      exact ⟨.top, r, y, rfl, rfl, descend_of_stop (by
        rw [findReplacementNode.dir_left, if_pos (hl.nil_iff.mp rfl)])⟩
    · obtain ⟨c, r', z, rfl, hc, hd⟩ := @ihl n hl0 (by omega) (y + treeLeftOff.toUInt32)
      refine ⟨.left y r c, r', z, rfl, hc, ?_⟩
      rwa [descend_of_step (show findReplacementNode.dir cc treeLeftOff y = some treeLeftOff by
        rw [findReplacementNode.dir_left, if_neg (mt hl.nil_iff.mpr hl0)])]

theorem SearchTree.subtree (ht : cc.SearchTree t) (hx : x ∈ t.nodes) :
    ∃ (c : Ctx) (l r : Tree), t = c.fill (.node l x r) ∧ cc.Rep (cc.getLeft x) l ∧
      cc.Rep (cc.getRight x) r := by
  obtain ⟨c, l, r, rfl⟩ := Tree.exists_fill_of_mem hx
  have h₀ : cc.Rep (cc.readLink addrNull) _ := readLink_addrNull ▸ ht.rep
  obtain ⟨-, -, hl, hr⟩ :=
    (h₀.fill_link fun y hy => ht.entry y (Ctx.mem_fill.mpr (.inr hy))).node_inv
  exact ⟨c, l, r, rfl, hl, hr⟩

theorem findReplacementNode_of_left {c : Ctx} (ht : cc.SearchTree (c.fill (.node l x r)))
    (hf : (c.fill (.node l x r)).nodes.length < fuel) (hl : cc.Rep (cc.getLeft x) l) (hl0 : l ≠ .nil) :
    ∃ (c' : Ctx) (l' : Tree) (y : UInt32), l = c'.fill (.node l' y .nil) ∧
      cc.findReplacementNode fuel x = some (y, c'.link (x + treeLeftOff.toUInt32)) ∧
      cc.readLink (c'.link (x + treeLeftOff.toUInt32)) = y ∧
      (y = cc.getLeft x → c'.link (x + treeLeftOff.toUInt32) = x + treeLeftOff.toUInt32) ∧
      y ∈ l.nodes ∧ (∀ z ∈ l.nodes, cc.key z ≤ cc.key y) ∧ cc.getRight y = addrNull := by
  have hsub : l.nodes.Sublist (c.fill (.node l x r)).nodes :=
    (List.sublist_append_left _ _).trans (c.sublist_fill (.node l x r))
  have hx : IsEntry x := ht.entry x (Ctx.mem_fill.mpr (.inl (by simp)))
  obtain ⟨c', l', y, rfl, hpost, hd⟩ :=
    descend_right_spine hl hl0 (lt_of_le_of_lt hsub.length_le hf) (x + treeLeftOff.toUInt32)
  have he : ∀ z ∈ c'.nodes, IsEntry z := fun z hz => ht.entry z (hsub.subset (Ctx.mem_fill.mpr (.inr hz)))
  have hl' : cc.Rep (cc.readLink (x + treeLeftOff.toUInt32)) (c'.fill (.node l' y .nil)) := by
    rwa [readLink_linkOf_left hx]
  obtain ⟨hy, -, -, hr⟩ := (hl'.fill_link he).node_inv
  refine ⟨c', l', y, rfl, ?_, hy, fun hyl => ?_, Ctx.mem_fill.mpr (.inl (by simp)), ?_, hr.nil_iff.mp rfl⟩
  · rw [findReplacementNode, if_pos (mt hl.nil_iff.mpr hl0)]; exact hd
  · by_contra hc
    have := (Ctx.nodup_fill (ht.nodup.sublist hsub)).2.2 y (by simp)
    exact this (hyl ▸ hl.root_eq ▸ Ctx.root_fill_mem (mt (fun h => h ▸ rfl) hc))
  · have := (ht.sorted.sublist (hsub.map _))
    rw [c'.nodes_fill, hpost] at this ⊢
    simp only [Tree.nodes_node, Tree.nodes_nil, List.append_nil, ← List.append_assoc] at this ⊢
    exact le_last_of_pairwise this

theorem findReplacementNode_of_right {c : Ctx} (ht : cc.SearchTree (c.fill (.node l x r)))
    (hf : (c.fill (.node l x r)).nodes.length < fuel) (hl : cc.Rep (cc.getLeft x) l)
    (hr : cc.Rep (cc.getRight x) r) (hl0 : l = .nil) (hr0 : r ≠ .nil) :
    ∃ (c' : Ctx) (r' : Tree) (y : UInt32), r = c'.fill (.node .nil y r') ∧
      cc.findReplacementNode fuel x = some (y, c'.link (x + treeRightOff.toUInt32)) ∧
      cc.readLink (c'.link (x + treeRightOff.toUInt32)) = y ∧
      (y = cc.getRight x → c'.link (x + treeRightOff.toUInt32) = x + treeRightOff.toUInt32) ∧
      y ∈ r.nodes ∧ (∀ z ∈ r.nodes, cc.key y ≤ cc.key z) ∧ cc.getLeft y = addrNull := by
  have hsub : r.nodes.Sublist (c.fill (.node l x r)).nodes :=
    ((List.sublist_cons_self _ _).trans (List.sublist_append_right _ _)).trans
      (c.sublist_fill (.node l x r))
  have hx : IsEntry x := ht.entry x (Ctx.mem_fill.mpr (.inl (by simp)))
  obtain ⟨c', r', y, rfl, hpre, hd⟩ :=
    descend_left_spine hr hr0 (lt_of_le_of_lt hsub.length_le hf) (x + treeRightOff.toUInt32)
  have he : ∀ z ∈ c'.nodes, IsEntry z := fun z hz => ht.entry z (hsub.subset (Ctx.mem_fill.mpr (.inr hz)))
  have hr' : cc.Rep (cc.readLink (x + treeRightOff.toUInt32)) (c'.fill (.node .nil y r')) := by
    rwa [readLink_linkOf_right hx]
  obtain ⟨hy, -, hyl, -⟩ := (hr'.fill_link he).node_inv
  refine ⟨c', r', y, rfl, ?_, hy, fun hyr => ?_, Ctx.mem_fill.mpr (.inl (by simp)), ?_, hyl.nil_iff.mp rfl⟩
  · rw [findReplacementNode, if_neg (not_not.mpr (hl.nil_iff.mp hl0)), if_pos (mt hr.nil_iff.mpr hr0)]
    exact hd
  · by_contra hc
    have := (Ctx.nodup_fill (ht.nodup.sublist hsub)).2.2 y (by simp)
    exact this (hyr ▸ hr.root_eq ▸ Ctx.root_fill_mem (mt (fun h => h ▸ rfl) hc))
  · have := (ht.sorted.sublist (hsub.map _))
    rw [c'.nodes_fill, hpre] at this ⊢
    simp only [Tree.nodes_node, Tree.nodes_nil, List.nil_append] at this ⊢
    exact first_le_of_pairwise this

theorem findReplacementNode_of_leaf (hl : cc.Rep (cc.getLeft x) .nil) (hr : cc.Rep (cc.getRight x) .nil) :
    cc.findReplacementNode fuel x = some (addrNull, addrNull) := by
  rw [findReplacementNode, if_neg (not_not.mpr (hl.nil_iff.mp rfl)),
    if_neg (not_not.mpr (hr.nil_iff.mp rfl))]

-- `find_replacement_node` on a node `x` of a search tree: the largest node of the left subtree
-- (which has no right child), else the smallest of the right subtree (which has no left
-- child), else null; with the link to it, `x`'s own link when it is a child of `x`.
theorem findReplacementNode_correct (ht : cc.SearchTree t) (hf : t.nodes.length < fuel)
    (hx : x ∈ t.nodes) : ∃ (c : Ctx) (l r : Tree), t = c.fill (.node l x r) ∧
    (l ≠ .nil → ∃ (c' : Ctx) (l' : Tree) (y : UInt32), l = c'.fill (.node l' y .nil) ∧
      cc.findReplacementNode fuel x = some (y, c'.link (x + treeLeftOff.toUInt32)) ∧
      cc.readLink (c'.link (x + treeLeftOff.toUInt32)) = y ∧
      (y = cc.getLeft x → c'.link (x + treeLeftOff.toUInt32) = x + treeLeftOff.toUInt32) ∧
      y ∈ l.nodes ∧ (∀ z ∈ l.nodes, cc.key z ≤ cc.key y) ∧ cc.getRight y = addrNull) ∧
    (l = .nil → r ≠ .nil → ∃ (c' : Ctx) (r' : Tree) (y : UInt32), r = c'.fill (.node .nil y r') ∧
      cc.findReplacementNode fuel x = some (y, c'.link (x + treeRightOff.toUInt32)) ∧
      cc.readLink (c'.link (x + treeRightOff.toUInt32)) = y ∧
      (y = cc.getRight x → c'.link (x + treeRightOff.toUInt32) = x + treeRightOff.toUInt32) ∧
      y ∈ r.nodes ∧ (∀ z ∈ r.nodes, cc.key y ≤ cc.key z) ∧ cc.getLeft y = addrNull) ∧
    (l = .nil → r = .nil → cc.findReplacementNode fuel x = some (addrNull, addrNull)) := by
  obtain ⟨c, l, r, rfl, hl, hr⟩ := ht.subtree hx
  refine ⟨c, l, r, rfl, findReplacementNode_of_left ht hf hl,
    findReplacementNode_of_right ht hf hl hr, ?_⟩
  rintro rfl rfl
  exact findReplacementNode_of_leaf hl hr

end SessionCacheLru

theorem twoSaved_findReplacementNode :
    twoSaved.SearchTree twoSavedTree ∧ twoSavedTree.nodes.length < 3 ∧ 0 ∈ twoSavedTree.nodes ∧
    ∃ (c : Ctx) (l r : Tree), twoSavedTree = c.fill (.node l 0 r) ∧
    (l ≠ .nil → ∃ (c' : Ctx) (l' : Tree) (y : UInt32), l = c'.fill (.node l' y .nil) ∧
      twoSaved.findReplacementNode 3 0 = some (y, c'.link (0 + treeLeftOff.toUInt32)) ∧
      twoSaved.readLink (c'.link (0 + treeLeftOff.toUInt32)) = y ∧
      (y = twoSaved.getLeft 0 → c'.link (0 + treeLeftOff.toUInt32) = 0 + treeLeftOff.toUInt32) ∧
      y ∈ l.nodes ∧ (∀ z ∈ l.nodes, twoSaved.key z ≤ twoSaved.key y) ∧
      twoSaved.getRight y = addrNull) ∧
    (l = .nil → r ≠ .nil → ∃ (c' : Ctx) (r' : Tree) (y : UInt32), r = c'.fill (.node .nil y r') ∧
      twoSaved.findReplacementNode 3 0 = some (y, c'.link (0 + treeRightOff.toUInt32)) ∧
      twoSaved.readLink (c'.link (0 + treeRightOff.toUInt32)) = y ∧
      (y = twoSaved.getRight 0 → c'.link (0 + treeRightOff.toUInt32) = 0 + treeRightOff.toUInt32) ∧
      y ∈ r.nodes ∧ (∀ z ∈ r.nodes, twoSaved.key y ≤ twoSaved.key z) ∧
      twoSaved.getLeft y = addrNull) ∧
    (l = .nil → r = .nil → twoSaved.findReplacementNode 3 0 = some (addrNull, addrNull)) :=
  ⟨twoSaved_searchTree, by decide, by decide,
    SessionCacheLru.findReplacementNode_correct twoSaved_searchTree (by decide) (by decide)⟩

end BearSSL
