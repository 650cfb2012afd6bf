import BearSSL.Lru.Search
import Mathlib.Data.List.Nodup

namespace BearSSL

inductive Tree
  | nil
  | node (l : Tree) (x : UInt32) (r : Tree)

namespace Tree

-- In-order.
def nodes : Tree → List UInt32
  | nil => []
  | node l x r => l.nodes ++ x :: r.nodes

def root : Tree → UInt32
  | nil => addrNull
  | node _ x _ => x

@[simp] theorem nodes_nil : nil.nodes = [] := rfl
@[simp] theorem nodes_node : (node l x r).nodes = l.nodes ++ x :: r.nodes := rfl

end Tree

-- A tree with one hole, from the root down to the hole.
inductive Ctx
  | top
  | left (x : UInt32) (r : Tree) (c : Ctx)
  | right (l : Tree) (x : UInt32) (c : Ctx)

namespace Ctx

def fill : Ctx → Tree → Tree
  | top, t => t
  | left x r c, t => .node (c.fill t) x r
  | right l x c, t => .node l x (c.fill t)

-- The address of the link to the hole, `b` being the address of the link to the root.
def link : Ctx → UInt32 → UInt32
  | top, b => b
  | left x _ c, _ => c.link (x + treeLeftOff.toUInt32)
  | right _ x c, _ => c.link (x + treeRightOff.toUInt32)

-- The nodes before and after the hole, in order.
def pre : Ctx → List UInt32
  | top => []
  | left _ _ c => c.pre
  | right l x c => l.nodes ++ x :: c.pre

def post : Ctx → List UInt32
  | top => []
  | left x r c => c.post ++ x :: r.nodes
  | right _ _ c => c.post

-- The nodes around the hole, the nearest first.
def nodes : Ctx → List UInt32
  | top => []
  | left x r c => x :: (r.nodes ++ c.nodes)
  | right l x c => x :: (l.nodes ++ c.nodes)

theorem nodes_fill (c : Ctx) (t : Tree) : (c.fill t).nodes = c.pre ++ t.nodes ++ c.post := by
  induction c <;> simp [fill, pre, post, *]

-- The context `d`, in the hole of `c`.
def comp : Ctx → Ctx → Ctx
  | top, d => d
  | left x r c, d => left x r (c.comp d)
  | right l x c, d => right l x (c.comp d)

theorem fill_comp (c d : Ctx) (t : Tree) : (c.comp d).fill t = c.fill (d.fill t) := by
  induction c <;> simp [comp, fill, *]

theorem link_comp (c d : Ctx) (b : UInt32) : (c.comp d).link b = d.link (c.link b) := by
  induction c generalizing b <;> simp [comp, link, *]

theorem perm_nodes (c : Ctx) : (c.pre ++ c.post).Perm c.nodes := by
  induction c <;> refine List.perm_iff_count.mpr fun a => ?_
  case top => rfl
  all_goals
    have := ‹List.Perm _ _›.count_eq a
    simp only [pre, post, nodes, List.count_append, List.count_cons] at this ⊢
    omega

end Ctx

theorem Ctx.perm_fill (c : Ctx) (s : Tree) : (c.fill s).nodes.Perm (s.nodes ++ c.nodes) :=
  List.perm_iff_count.mpr fun a => by
    have := c.perm_nodes.count_eq a
    simp only [c.nodes_fill, List.count_append] at this ⊢
    omega

theorem Ctx.mem_fill {c : Ctx} : y ∈ (c.fill s).nodes ↔ y ∈ s.nodes ∨ y ∈ c.nodes := by
  simp [(c.perm_fill s).mem_iff]

theorem Ctx.nodup_fill {c : Ctx} (h : (c.fill s).nodes.Nodup) :
    s.nodes.Nodup ∧ c.nodes.Nodup ∧ ∀ y ∈ s.nodes, y ∉ c.nodes := by
  have := List.nodup_append.mp ((c.perm_fill s).nodup_iff.mp h)
  exact ⟨this.1, this.2.1, fun _ hy hc => this.2.2 hy hc⟩

theorem Ctx.root_fill_mem {c : Ctx} (hc : c ≠ .top) : (c.fill s).root ∈ c.nodes := by
  cases c <;> simp_all [fill, nodes, Tree.root]

-- `LinkOf x a`: `a` is the address of a link of the entry `x`.
def LinkOf (x a : UInt32) : Prop :=
  a = x + treeLeftOff.toUInt32 ∨ a = x + treeRightOff.toUInt32

theorem LinkOf.ne_addrNull (hx : IsEntry x) : LinkOf x a → a ≠ addrNull
  | .inl h | .inr h => h ▸ hx.add_ne_addrNull (by decide)

theorem LinkOf.eq (hx : IsEntry x) (hy : IsEntry y) (h : LinkOf x a) (h' : LinkOf y a) : x = y := by
  have key : ∀ o o', o < lruEntryLen → o' < lruEntryLen →
      x + o.toUInt32 = y + o'.toUInt32 → x = y := fun o o' ho ho' e =>
    ((hx.field_eq_iff hy ho ho').mp (by rw [← hx.add_toNat ho, ← hy.add_toNat ho', e])).1
  rcases h with rfl | rfl <;> rcases h' with h' | h' <;> exact key _ _ (by decide) (by decide) h'

-- The hole's link is the root link or a link of a node around the hole.
theorem Ctx.link_cases (c : Ctx) (b : UInt32) :
    c.link b = b ∨ ∃ y ∈ c.nodes, LinkOf y (c.link b) := by
  induction c generalizing b with
  | top => exact .inl rfl
  | left x r c ih =>
    rcases ih (x + treeLeftOff.toUInt32) with h | ⟨y, hy, hl⟩
    · exact .inr ⟨x, by simp [nodes], .inl h⟩
    · exact .inr ⟨y, by simp [nodes, hy], hl⟩
  | right l x c ih =>
    rcases ih (x + treeRightOff.toUInt32) with h | ⟨y, hy, hl⟩
    · exact .inr ⟨x, by simp [nodes], .inr h⟩
    · exact .inr ⟨y, by simp [nodes, hy], hl⟩

theorem IsEntry.left_ne_right (hx : IsEntry x) :
    x + treeLeftOff.toUInt32 ≠ x + treeRightOff.toUInt32 := fun e =>
  absurd ((hx.field_eq_iff hx (by decide : treeLeftOff < lruEntryLen)
    (by decide : treeRightOff < lruEntryLen)).mp
    (by rw [← hx.add_toNat (by decide), e, hx.add_toNat (by decide)])).2 (by decide)

theorem Ctx.link_owner (c : Ctx) (h : LinkOf x b) :
    ∃ y, (y = x ∨ y ∈ c.nodes) ∧ LinkOf y (c.link b) := by
  rcases c.link_cases b with e | ⟨y, hy, hl⟩
  · exact ⟨x, .inl rfl, by rw [e]; exact h⟩
  · exact ⟨y, .inr hy, hl⟩

-- The hole's link below one link of `x` is never another link of `x`.
theorem Ctx.link_ne_link (c : Ctx) (hx : IsEntry x) (hxc : x ∉ c.nodes)
    (he : ∀ y ∈ c.nodes, IsEntry y) (hb' : LinkOf x b') (hne : b ≠ b') :
    c.link b ≠ b' := by
  rcases c.link_cases b with e | ⟨y, hy, hl⟩
  · rwa [e]
  · exact fun e => hxc (LinkOf.eq (he y hy) hx hl (e ▸ hb') ▸ hy)

namespace SessionCacheLru

-- `cc.Rep x t`: following the left and right links from `x` unfolds to the tree `t`.
inductive Rep (cc : SessionCacheLru) : UInt32 → Tree → Prop
  | nil : Rep cc addrNull .nil
  | node : x ≠ addrNull → Rep cc (cc.getLeft x) l → Rep cc (cc.getRight x) r →
      Rep cc x (.node l x r)

-- The search-tree invariant: from the root, the links unfold to a finite tree of entries in
-- strictly increasing order of masked ID.
structure SearchTree (cc : SessionCacheLru) (t : Tree) : Prop where
  rep : cc.Rep cc.root t
  sorted : (t.nodes.map cc.key).Pairwise (· < ·)
  entry : ∀ x ∈ t.nodes, IsEntry x

variable {cc cc' : SessionCacheLru} {t t' : Tree} {x y v w b : UInt32}

theorem Rep.node_inv (h : cc.Rep y (.node l x r)) :
    y = x ∧ x ≠ addrNull ∧ cc.Rep (cc.getLeft x) l ∧ cc.Rep (cc.getRight x) r := by
  cases h; exact ⟨rfl, ‹_›, ‹_›, ‹_›⟩

theorem Rep.root_eq : cc.Rep x t → t.root = x
  | .nil => rfl
  | .node .. => rfl

theorem Rep.nil_iff (h : cc.Rep x t) : t = .nil ↔ x = addrNull := by
  cases h <;> simp_all

theorem Rep.unique (h : cc.Rep x t) (h' : cc.Rep x t') : t = t' := by
  induction h generalizing t' with
  | nil => exact ((h'.nil_iff).mpr rfl).symm
  | node hx _ _ ihl ihr =>
    cases h' with
    | nil => exact absurd rfl hx
    | node _ hl hr => rw [ihl hl, ihr hr]

theorem Rep.frame (h : cc.Rep x t)
    (hs : ∀ y ∈ t.nodes, cc'.getLeft y = cc.getLeft y ∧ cc'.getRight y = cc.getRight y) :
    cc'.Rep x t := by
  induction h with
  | nil => exact .nil
  | node hx _ _ ihl ihr =>
    simp only [Tree.nodes_node, List.mem_append, List.mem_cons] at hs
    rw [← (hs _ (.inr (.inl rfl))).1] at ihl
    rw [← (hs _ (.inr (.inl rfl))).2] at ihr
    exact .node hx (ihl fun y hy => hs y (.inl hy)) (ihr fun y hy => hs y (.inr (.inr hy)))

theorem get_setLink (hy : IsEntry y) (ho : off < lruEntryLen) :
    (cc.setLink w v).get off y = if w = y + off.toUInt32 then v else cc.get off y := by
  have hne := hy.add_ne_addrNull ho
  unfold setLink
  split
  case isTrue hw => simp [hw, Ne.symm hne]; rfl
  case isFalse hw =>
    simp only [get, Store.setWord, Function.update_apply]
    congr 1
    simp only [← hy.add_toNat ho, @eq_comm _ w]
    exact propext ⟨UInt32.toNat.inj, (· ▸ rfl)⟩

theorem getLeft_setLink (hy : IsEntry y) :
    (cc.setLink w v).getLeft y = if w = y + treeLeftOff.toUInt32 then v else cc.getLeft y :=
  get_setLink hy (by decide)

theorem getRight_setLink (hy : IsEntry y) :
    (cc.setLink w v).getRight y = if w = y + treeRightOff.toUInt32 then v else cc.getRight y :=
  get_setLink hy (by decide)

-- Writing a link that no node of `t` owns leaves `t` in place.
theorem Rep.setLink (h : cc.Rep x t) (he : ∀ y ∈ t.nodes, IsEntry y)
    (hw : ∀ y ∈ t.nodes, ¬LinkOf y w) : (cc.setLink w v).Rep x t :=
  h.frame fun y hy => by
    rw [getLeft_setLink (he y hy), getRight_setLink (he y hy)]
    have := hw y hy
    simp only [LinkOf, not_or] at this
    simp [this]

theorem readLink_linkOf_left (hx : IsEntry x) :
    cc.readLink (x + treeLeftOff.toUInt32) = cc.getLeft x := by
  simp [readLink, hx.add_ne_addrNull (by decide : treeLeftOff < lruEntryLen),
    hx.add_toNat (by decide : treeLeftOff < lruEntryLen), getLeft, get]

theorem readLink_linkOf_right (hx : IsEntry x) :
    cc.readLink (x + treeRightOff.toUInt32) = cc.getRight x := by
  simp [readLink, hx.add_ne_addrNull (by decide : treeRightOff < lruEntryLen),
    hx.add_toNat (by decide : treeRightOff < lruEntryLen), getRight, get]

theorem readLink_addrNull : cc.readLink addrNull = cc.root :=
  if_pos rfl

theorem readLink_setLink_self : (cc.setLink w v).readLink w = v := by
  unfold setLink readLink; split <;> simp [*, Store.setWord]

theorem readLink_setLink_of_ne (h : w ≠ b) : (cc.setLink w v).readLink b = cc.readLink b := by
  have : b.toNat ≠ w.toNat := fun e => h (UInt32.toNat.inj e).symm
  unfold setLink readLink
  by_cases hb : b = addrNull <;> by_cases hw : w = addrNull <;>
    simp_all [Store.setWord, Function.update_apply]

-- Writing the link to the hole of `c` replaces the subtree there; `b` is the link to the root:
-- the root pointer itself, or a link of an entry outside the tree.
theorem Rep.fill_setLink {c : Ctx} (h : cc.Rep (cc.readLink b) (c.fill t))
    (hn : c.nodes.Nodup) (he : ∀ y ∈ c.nodes, IsEntry y)
    (hb : b = addrNull ∨ ∃ p, IsEntry p ∧ p ∉ c.nodes ∧ LinkOf p b)
    (ht : (cc.setLink (c.link b) v).Rep v t') :
    (cc.setLink (c.link b) v).Rep ((cc.setLink (c.link b) v).readLink b) (c.fill t') := by
  induction c generalizing b with
  | top => rwa [Ctx.link, readLink_setLink_self]
  | left x r c ih =>
    obtain ⟨hbx, hx0, hl, hr⟩ := h.node_inv
    simp only [Ctx.nodes, Ctx.link, Ctx.fill, List.nodup_cons, List.nodup_append, List.mem_cons,
      List.mem_append] at hn he hb ht ⊢
    obtain ⟨hxrc, -, hcn, hdis⟩ := hn
    have hx : IsEntry x := he x (.inl rfl)
    have hxc : x ∉ c.nodes := fun h => hxrc (.inr h)
    have hce : ∀ y ∈ c.nodes, IsEntry y := fun y hy => he y (.inr (.inr hy))
    obtain ⟨y, hy, hwy⟩ := c.link_owner (.inl rfl : LinkOf x (x + treeLeftOff.toUInt32))
    have hye : IsEntry y := hy.elim (· ▸ hx) (hce y)
    have hwb : c.link (x + treeLeftOff.toUInt32) ≠ b := by
      intro e
      rcases hb with hb | ⟨p, hp, hpn, hpl⟩
      · exact hwy.ne_addrNull hye (e.trans hb)
      · have hyp := hwy.eq hye hp (e ▸ hpl)
        rcases hy with rfl | hy
        exacts [hpn (.inl hyp.symm), hpn (.inr (.inr (hyp ▸ hy)))]
    have hl' := @ih (x + treeLeftOff.toUInt32) (by rwa [readLink_linkOf_left hx]) hcn hce
      (.inr ⟨x, hx, hxc, .inl rfl⟩) ht
    rw [readLink_linkOf_left hx] at hl'
    rw [readLink_setLink_of_ne hwb, hbx]
    refine .node hx0 hl' ?_
    rw [getRight_setLink hx, if_neg (c.link_ne_link hx hxc hce (.inr rfl) hx.left_ne_right)]
    refine hr.setLink (fun z hz => he z (.inr (.inl hz))) fun z hz hzw => ?_
    rcases hy with rfl | hy
    · exact hxrc (.inl ((hzw.eq (he z (.inr (.inl hz))) hye hwy) ▸ hz))
    · exact hdis hz ((hzw.eq (he z (.inr (.inl hz))) hye hwy) ▸ hy)
  | right l x c ih =>
    obtain ⟨hbx, hx0, hl, hr⟩ := h.node_inv
    simp only [Ctx.nodes, Ctx.link, Ctx.fill, List.nodup_cons, List.nodup_append, List.mem_cons,
      List.mem_append] at hn he hb ht ⊢
    obtain ⟨hxlc, -, hcn, hdis⟩ := hn
    have hx : IsEntry x := he x (.inl rfl)
    have hxc : x ∉ c.nodes := fun h => hxlc (.inr h)
    have hce : ∀ y ∈ c.nodes, IsEntry y := fun y hy => he y (.inr (.inr hy))
    obtain ⟨y, hy, hwy⟩ := c.link_owner (.inr rfl : LinkOf x (x + treeRightOff.toUInt32))
    have hye : IsEntry y := hy.elim (· ▸ hx) (hce y)
    have hwb : c.link (x + treeRightOff.toUInt32) ≠ b := by
      intro e
      rcases hb with hb | ⟨p, hp, hpn, hpl⟩
      · exact hwy.ne_addrNull hye (e.trans hb)
      · have hyp := hwy.eq hye hp (e ▸ hpl)
        rcases hy with rfl | hy
        exacts [hpn (.inl hyp.symm), hpn (.inr (.inr (hyp ▸ hy)))]
    have hr' := @ih (x + treeRightOff.toUInt32) (by rwa [readLink_linkOf_right hx]) hcn hce
      (.inr ⟨x, hx, hxc, .inr rfl⟩) ht
    rw [readLink_linkOf_right hx] at hr'
    rw [readLink_setLink_of_ne hwb, hbx]
    refine .node hx0 ?_ hr'
    rw [getLeft_setLink hx, if_neg (c.link_ne_link hx hxc hce (.inl rfl) hx.left_ne_right.symm)]
    refine hl.setLink (fun z hz => he z (.inr (.inl hz))) fun z hz hzw => ?_
    rcases hy with rfl | hy
    · exact hxlc (.inl ((hzw.eq (he z (.inr (.inl hz))) hye hwy) ▸ hz))
    · exact hdis hz ((hzw.eq (he z (.inr (.inl hz))) hye hwy) ▸ hy)

-- The link to the hole holds the root of the subtree there.
theorem Rep.fill_link {c : Ctx} (h : cc.Rep (cc.readLink b) (c.fill t))
    (he : ∀ y ∈ c.nodes, IsEntry y) : cc.Rep (cc.readLink (c.link b)) t := by
  induction c generalizing b with
  | top => exact h
  | left x r c ih =>
    obtain ⟨-, -, hl, -⟩ := h.node_inv
    exact ih (by rwa [readLink_linkOf_left (he x (by simp [Ctx.nodes]))])
      fun y hy => he y (by simp [Ctx.nodes, hy])
  | right l x c ih =>
    obtain ⟨-, -, -, hr⟩ := h.node_inv
    exact ih (by rwa [readLink_linkOf_right (he x (by simp [Ctx.nodes]))])
      fun y hy => he y (by simp [Ctx.nodes, hy])

theorem SearchTree.nodup (ht : cc.SearchTree t) : t.nodes.Nodup :=
  List.Nodup.of_map cc.key (ht.sorted.imp ne_of_lt)

theorem SearchTree.key_inj (ht : cc.SearchTree t) (hx : x ∈ t.nodes) (hy : y ∈ t.nodes)
    (h : cc.key x = cc.key y) : x = y :=
  List.inj_on_of_nodup_map (ht.sorted.imp ne_of_lt) hx hy h

end SessionCacheLru

end BearSSL
