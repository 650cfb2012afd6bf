import BearSSL.Lru.Cache
import BearSSL.Lru.Tree

namespace BearSSL

theorem pairwise_map_node {f : UInt32 → SessionId} :
    ((Tree.node l x r).nodes.map f).Pairwise (· < ·) ↔
      (l.nodes.map f).Pairwise (· < ·) ∧ (r.nodes.map f).Pairwise (· < ·) ∧
        (∀ y ∈ l.nodes, f y < f x) ∧ (∀ y ∈ r.nodes, f x < f y) := by
  simp only [Tree.nodes_node, List.map_append, List.map_cons, List.pairwise_append,
    List.pairwise_cons, List.mem_map, List.mem_cons, forall_exists_index, and_imp,
    forall_apply_eq_imp_iff₂]
  constructor
  · rintro ⟨hl, ⟨hx, hr⟩, hlr⟩
    exact ⟨hl, hr, fun y hy => hlr y hy _ (.inl rfl), hx⟩
  · rintro ⟨hl, hr, hlx, hxr⟩
    refine ⟨hl, ⟨hxr, hr⟩, fun y hy z hz => ?_⟩
    rcases hz with rfl | ⟨w, hw, rfl⟩
    exacts [hlx y hy, (hlx y hy).trans (hxr w hw)]

theorem Ctx.ne_top_link (c : Ctx) (hc : c ≠ .top) (b : UInt32) : ∃ y ∈ c.nodes, LinkOf y (c.link b) := by
  induction c generalizing b with
  | top => exact absurd rfl hc
  | left x r c ih =>
    by_cases h : c = .top
    · exact ⟨x, by simp [nodes], by simp [h, link, LinkOf]⟩
    · obtain ⟨y, hy, hl⟩ := ih h (x + treeLeftOff.toUInt32)
      exact ⟨y, by simp [nodes, hy], hl⟩
  | right l x c ih =>
    by_cases h : c = .top
    · exact ⟨x, by simp [nodes], by simp [h, link, LinkOf]⟩
    · obtain ⟨y, hy, hl⟩ := ih h (x + treeRightOff.toUInt32)
      exact ⟨y, by simp [nodes, hy], hl⟩

theorem Ctx.link_addrNull_eq_iff (c : Ctx) (he : ∀ y ∈ c.nodes, IsEntry y) :
    c.link addrNull = addrNull ↔ c = .top := by
  refine ⟨fun h => ?_, (· ▸ rfl)⟩
  by_contra hc
  obtain ⟨y, hy, hl⟩ := c.ne_top_link hc addrNull
  exact hl.ne_addrNull (he y hy) h

-- The null link a search ends on is no link of an entry outside the tree.
theorem Ctx.not_linkOf (c : Ctx) (hce : ∀ y ∈ c.nodes, IsEntry y) (hz : IsEntry z)
    (hzc : z ∉ c.nodes) : ¬LinkOf z (c.link addrNull) := fun h => by
  rcases c.link_cases addrNull with e | ⟨y, hy, hl⟩
  · exact h.ne_addrNull hz e
  · exact hzc (h.eq hz (hce y hy) hl ▸ hy)

namespace SessionCacheLru

variable {cc : SessionCacheLru} {t : Tree} {x al b : UInt32} {k : SessionId}

theorem findNode.dir_eq : findNode.dir cc k x =
    if x = addrNull then none
    else match compare k (cc.key x) with
      | .lt => some treeLeftOff
      | .eq => none
      | .gt => some treeRightOff :=
  rfl

theorem findNode.dir_addrNull : findNode.dir cc k addrNull = none := by
  simp [findNode.dir_eq]

theorem findNode.dir_of_lt (hx : x ≠ addrNull) (hk : k < cc.key x) :
    findNode.dir cc k x = some treeLeftOff := by
  simp [findNode.dir_eq, hx, compare_lt_iff_lt.mpr hk]

theorem findNode.dir_of_eq (hx : x ≠ addrNull) (hk : k = cc.key x) : findNode.dir cc k x = none := by
  simp [findNode.dir_eq, hx, compare_eq_iff_eq.mpr hk]

theorem findNode.dir_of_gt (hx : x ≠ addrNull) (hk : cc.key x < k) :
    findNode.dir cc k x = some treeRightOff := by
  simp [findNode.dir_eq, hx, compare_gt_iff_gt.mpr hk]

-- The descent of `find_node` on a represented search tree stops at the hole of a context `c`,
-- filled with the node holding `k` or with nothing, and between the keys around the hole.
theorem descend_findNode (k : SessionId) (al : UInt32) (h : cc.Rep x t) (hs : (t.nodes.map cc.key).Pairwise (· < ·))
    (hf : t.nodes.length < fuel) :
    ∃ (c : Ctx) (s : Tree), t = c.fill s ∧ cc.descend (findNode.dir cc k) fuel x al = some (s.root, c.link al) ∧
      (s = .nil ∨ ∃ l y r, s = .node l y r ∧ cc.key y = k) ∧
      (∀ y ∈ c.pre, cc.key y < k) ∧ (∀ y ∈ c.post, k < cc.key y) := by
  induction h generalizing al fuel with
  | nil =>
    obtain ⟨n, rfl⟩ : ∃ n, fuel = n + 1 := ⟨fuel - 1, by simp at hf; omega⟩
    exact ⟨.top, .nil, rfl, descend_of_stop findNode.dir_addrNull, .inl rfl, by simp [Ctx.pre],
      by simp [Ctx.post]⟩
  | @node x l r hx _ _ ihl ihr =>
    obtain ⟨hls, hrs, hlx, hxr⟩ := pairwise_map_node.mp hs
    obtain ⟨n, rfl⟩ : ∃ n, fuel = n + 1 := ⟨fuel - 1, by omega⟩
    simp only [Tree.nodes_node, List.length_append, List.length_cons] at hf
    rcases lt_trichotomy k (cc.key x) with hk | rfl | hk
    case inl =>
      obtain ⟨c, s, rfl, hd, hs, hpre, hpost⟩ := @ihl n (x + treeLeftOff.toUInt32) hls (by omega)
      refine ⟨.left x r c, s, rfl, ?_, hs, hpre, ?_⟩
      · rwa [descend_of_step (findNode.dir_of_lt hx hk)]
      · simp only [Ctx.post, List.mem_append, List.mem_cons]
        rintro y (hy | rfl | hy)
        exacts [hpost y hy, hk, hk.trans (hxr y hy)]
    case inr.inl =>
      exact ⟨.top, .node l x r, rfl, descend_of_stop (findNode.dir_of_eq hx rfl),
        .inr ⟨l, x, r, rfl, rfl⟩, by simp [Ctx.pre], by simp [Ctx.post]⟩
    case inr.inr =>
      obtain ⟨c, s, rfl, hd, hs, hpre, hpost⟩ := @ihr n (x + treeRightOff.toUInt32) hrs (by omega)
      refine ⟨.right l x c, s, rfl, ?_, hs, ?_, hpost⟩
      · rwa [descend_of_step (findNode.dir_of_gt hx hk)]
      · simp only [Ctx.pre, List.mem_append, List.mem_cons]
        rintro y (hy | rfl | hy)
        exacts [(hlx y hy).trans hk, hk, hpre y hy]

theorem pairwise_insert {f : UInt32 → SessionId} {A B : List UInt32}
    (h : ((A ++ B).map f).Pairwise (· < ·)) (hA : ∀ a ∈ A, f a < f z) (hB : ∀ b ∈ B, f z < f b) :
    ((A ++ z :: B).map f).Pairwise (· < ·) := by
  simp only [List.map_append, List.map_cons, List.pairwise_append, List.pairwise_cons,
    List.mem_map, List.mem_cons, forall_exists_index, and_imp, forall_apply_eq_imp_iff₂] at h ⊢
  refine ⟨h.1, ⟨hB, h.2.1⟩, fun a ha b hb => ?_⟩
  rcases hb with rfl | ⟨b', hb', rfl⟩
  exacts [hA a ha, h.2.2 a ha b' hb']

theorem findNode_hit (ht : cc.SearchTree t) (hf : t.nodes.length < fuel) (hx : x ∈ t.nodes) :
    ∃ (c : Ctx) (l r : Tree), t = c.fill (.node l x r) ∧ cc.findNode fuel (cc.key x) = some (x, c.link addrNull) ∧
      cc.readLink (c.link addrNull) = x ∧ (c.link addrNull = addrNull ↔ x = cc.root) := by
  obtain ⟨c, s, rfl, hd, hs, hpre, hpost⟩ := descend_findNode (cc.key x) addrNull ht.rep ht.sorted hf
  have hce : ∀ y ∈ c.nodes, IsEntry y := fun y hy => ht.entry y (Ctx.mem_fill.mpr (.inr hy))
  rcases hs with rfl | ⟨l, y, r, rfl, hy⟩
  case inl =>
    have : x ∈ c.pre ++ c.post :=
      c.perm_nodes.mem_iff.mpr ((Ctx.mem_fill.mp hx).resolve_left (by simp))
    rcases List.mem_append.mp this with h | h
    exacts [absurd (hpre x h) (lt_irrefl _), absurd (hpost x h) (lt_irrefl _)]
  obtain rfl := ht.key_inj (Ctx.mem_fill.mpr (.inl (by simp))) hx hy
  have h₀ : cc.Rep (cc.readLink addrNull) _ := readLink_addrNull ▸ ht.rep
  refine ⟨c, l, r, rfl, hd, (h₀.fill_link hce).root_eq.symm, ?_⟩
  rw [c.link_addrNull_eq_iff hce, ← ht.rep.root_eq]
  constructor
  · rintro rfl; rfl
  · intro h
    by_contra hc
    have := (Ctx.nodup_fill ht.nodup).2.2 y (by simp)
    exact this (h ▸ Ctx.root_fill_mem hc)

theorem findNode_miss (ht : cc.SearchTree t) (hf : t.nodes.length < fuel)
    (hk : ∀ x ∈ t.nodes, cc.key x ≠ k) :
    ∃ c : Ctx, t = c.fill .nil ∧ cc.findNode fuel k = some (addrNull, c.link addrNull) ∧
      cc.readLink (c.link addrNull) = addrNull ∧ (c.link addrNull = addrNull ↔ t = .nil) ∧
      (∀ y ∈ c.pre, cc.key y < k) ∧ (∀ y ∈ c.post, k < cc.key y) := by
  obtain ⟨c, s, rfl, hd, hs, hpre, hpost⟩ := descend_findNode k addrNull ht.rep ht.sorted hf
  have hce : ∀ y ∈ c.nodes, IsEntry y := fun y hy => ht.entry y (Ctx.mem_fill.mpr (.inr hy))
  rcases hs with rfl | ⟨l, y, r, rfl, hy⟩
  swap; · exact absurd hy (hk y (Ctx.mem_fill.mpr (.inl (by simp))))
  have h₀ : cc.Rep (cc.readLink addrNull) _ := readLink_addrNull ▸ ht.rep
  refine ⟨c, rfl, hd, (h₀.fill_link hce).root_eq.symm, ?_, hpre, hpost⟩
  rw [c.link_addrNull_eq_iff hce]
  cases c <;> simp [Ctx.fill]

-- Linking a fresh entry with null children at the hole `find_node` missed at keeps a search tree.
theorem SearchTree.insert {c : Ctx} (ht : cc.SearchTree (c.fill .nil)) (hz : IsEntry z)
    (hzt : z ∉ (c.fill .nil).nodes) (hpre : ∀ y ∈ c.pre, cc.key y < cc.key z)
    (hpost : ∀ y ∈ c.post, cc.key z < cc.key y) (hl : cc.getLeft z = addrNull)
    (hr : cc.getRight z = addrNull) :
    (cc.setLink (c.link addrNull) z).SearchTree (c.fill (.node .nil z .nil)) := by
  have hce : ∀ y ∈ c.nodes, IsEntry y := fun y hy => ht.entry y (Ctx.mem_fill.mpr (.inr hy))
  have hzc : z ∉ c.nodes := fun h => hzt (Ctx.mem_fill.mpr (.inr h))
  have hw := c.not_linkOf hce hz hzc
  have hkey : (cc.setLink (c.link addrNull) z).key = cc.key := funext fun _ => key_setLink
  refine ⟨?_, ?_, fun y hy => ?_⟩
  · have h₀ : cc.Rep (cc.readLink addrNull) _ := readLink_addrNull ▸ ht.rep
    have := h₀.fill_setLink (Ctx.nodup_fill ht.nodup).2.1 hce (.inl rfl)
      (.node hz.ne_addrNull (by rw [getLeft_setLink hz, if_neg (fun e => hw (.inl e)), hl]; exact .nil)
        (by rw [getRight_setLink hz, if_neg (fun e => hw (.inr e)), hr]; exact .nil))
    rwa [readLink_addrNull] at this
  · have := ht.sorted
    simp only [hkey, Ctx.nodes_fill, Tree.nodes_nil, Tree.nodes_node, List.append_nil,
      List.nil_append, List.singleton_append, List.append_assoc] at this ⊢
    exact pairwise_insert this hpre hpost
  · rcases Ctx.mem_fill.mp hy with h | h
    · simp only [Tree.nodes_node, Tree.nodes_nil, List.nil_append, List.mem_singleton] at h
      exact h ▸ hz
    · exact hce y h

-- `find_node` on a search tree: on a hit, the node and the link to it; on a miss, the null link
-- where `k` belongs, at which a fresh entry with key `k` and null children can be linked.
theorem findNode_correct (ht : cc.SearchTree t) (hf : t.nodes.length < fuel) (k : SessionId) :
    (∀ x ∈ t.nodes, cc.key x = k →
      ∃ (c : Ctx) (l r : Tree), t = c.fill (.node l x r) ∧
        cc.findNode fuel k = some (x, c.link addrNull) ∧
        cc.readLink (c.link addrNull) = x ∧ (c.link addrNull = addrNull ↔ x = cc.root)) ∧
    ((∀ x ∈ t.nodes, cc.key x ≠ k) →
      ∃ c : Ctx, t = c.fill .nil ∧ cc.findNode fuel k = some (addrNull, c.link addrNull) ∧
        cc.readLink (c.link addrNull) = addrNull ∧ (c.link addrNull = addrNull ↔ t = .nil) ∧
        ∀ z, IsEntry z → z ∉ t.nodes → cc.key z = k → cc.getLeft z = addrNull →
          cc.getRight z = addrNull →
          (cc.setLink (c.link addrNull) z).SearchTree (c.fill (.node .nil z .nil)) ∧
          ∀ y, y ∈ (c.fill (.node .nil z .nil)).nodes ↔ y = z ∨ y ∈ t.nodes) := by
  refine ⟨fun x hx hk => hk ▸ findNode_hit ht hf hx, fun hk => ?_⟩
  obtain ⟨c, rfl, hd, hn, hnil, hpre, hpost⟩ := findNode_miss ht hf hk
  refine ⟨c, rfl, hd, hn, hnil, fun z hz hzt hzk hl hr =>
    ⟨ht.insert hz hzt (hzk ▸ hpre) (hzk ▸ hpost) hl hr, fun y => ?_⟩⟩
  simp [Ctx.mem_fill]

end SessionCacheLru

def twoSavedTree : Tree := .node .nil 0 (.node .nil 100 .nil)

theorem twoSaved_searchTree : twoSaved.SearchTree twoSavedTree := by
  refine ⟨?_, by decide, by decide⟩
  rw [show twoSaved.root = 0 by decide]
  exact .node (by decide) ((show twoSaved.getLeft 0 = addrNull by decide) ▸ .nil)
    ((show twoSaved.getRight 0 = 100 by decide) ▸ .node (by decide)
      ((show twoSaved.getLeft 100 = addrNull by decide) ▸ .nil)
      ((show twoSaved.getRight 100 = addrNull by decide) ▸ .nil))

theorem twoSaved_findNode :
    twoSaved.SearchTree twoSavedTree ∧ twoSavedTree.nodes.length < 3 ∧
    (∀ x ∈ twoSavedTree.nodes, twoSaved.key x = twoSaved.key 100 →
      ∃ (c : Ctx) (l r : Tree), twoSavedTree = c.fill (.node l x r) ∧
        twoSaved.findNode 3 (twoSaved.key 100) = some (x, c.link addrNull) ∧
        twoSaved.readLink (c.link addrNull) = x ∧ (c.link addrNull = addrNull ↔ x = twoSaved.root)) ∧
    ((∀ x ∈ twoSavedTree.nodes, twoSaved.key x ≠ twoSaved.key 100) →
      ∃ c : Ctx, twoSavedTree = c.fill .nil ∧
        twoSaved.findNode 3 (twoSaved.key 100) = some (addrNull, c.link addrNull) ∧
        twoSaved.readLink (c.link addrNull) = addrNull ∧ (c.link addrNull = addrNull ↔ twoSavedTree = .nil) ∧
        ∀ z, IsEntry z → z ∉ twoSavedTree.nodes → twoSaved.key z = twoSaved.key 100 →
          twoSaved.getLeft z = addrNull → twoSaved.getRight z = addrNull →
          (twoSaved.setLink (c.link addrNull) z).SearchTree (c.fill (.node .nil z .nil)) ∧
          ∀ y, y ∈ (c.fill (.node .nil z .nil)).nodes ↔ y = z ∨ y ∈ twoSavedTree.nodes) :=
  ⟨twoSaved_searchTree, by decide,
    SessionCacheLru.findNode_correct twoSaved_searchTree (by decide) (twoSaved.key 100)⟩

end BearSSL
