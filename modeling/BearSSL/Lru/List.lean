import BearSSL.Lru.Cache
import Mathlib.Data.List.Nodup

namespace BearSSL.SessionCacheLru

-- `cc.Linked p l n`: following `next` from the first entry of `l` visits the entries of `l`
-- in order and then `n`, and each `prev` points back, the first entry's to `p`.
def Linked (cc : SessionCacheLru) : UInt32 → List UInt32 → UInt32 → Prop
  | _, [], _ => True
  | p, x :: xs, n => cc.getPrev x = p ∧ cc.getNext x = xs.headD n ∧ cc.Linked x xs n

-- The LRU list of `cc` holds the entries `l`, the most recently used first.
structure LruList (cc : SessionCacheLru) (l : List UInt32) : Prop where
  nodup : l.Nodup
  entry : ∀ x ∈ l, IsEntry x
  head : cc.head = l.headD addrNull
  tail : cc.tail = l.getLastD addrNull
  linked : cc.Linked addrNull l addrNull

variable {cc cc' : SessionCacheLru} {p n p' n' x y z v : UInt32} {l a b : List UInt32}

section Fields

variable (hy : IsEntry y) (hz : IsEntry z)
include hy hz

theorem getPrev_setPrev : (cc.setPrev z v).getPrev y = if y = z then v else cc.getPrev y :=
  (get_set_of_isEntry hy hz (by decide) (by decide)).trans (by simp; rfl)

theorem getNext_setNext : (cc.setNext z v).getNext y = if y = z then v else cc.getNext y :=
  (get_set_of_isEntry hy hz (by decide) (by decide)).trans (by simp; rfl)

theorem getPrev_setNext : (cc.setNext z v).getPrev y = cc.getPrev y :=
  (get_set_of_isEntry hy hz (by decide) (by decide)).trans (by simp [listPrevOff, listNextOff]; rfl)

theorem getNext_setPrev : (cc.setPrev z v).getNext y = cc.getNext y :=
  (get_set_of_isEntry hy hz (by decide) (by decide)).trans (by simp [listPrevOff, listNextOff]; rfl)

-- A write to a list field leaves the tree fields.
theorem tree_setPrev : (cc.setPrev z v).getLeft y = cc.getLeft y ∧
    (cc.setPrev z v).getRight y = cc.getRight y :=
  ⟨(get_set_of_isEntry hy hz (by decide) (by decide)).trans (by simp [listPrevOff, treeLeftOff]; rfl),
    (get_set_of_isEntry hy hz (by decide) (by decide)).trans (by simp [listPrevOff, treeRightOff]; rfl)⟩

theorem tree_setNext : (cc.setNext z v).getLeft y = cc.getLeft y ∧
    (cc.setNext z v).getRight y = cc.getRight y :=
  ⟨(get_set_of_isEntry hy hz (by decide) (by decide)).trans (by simp [listNextOff, treeLeftOff]; rfl),
    (get_set_of_isEntry hy hz (by decide) (by decide)).trans (by simp [listNextOff, treeRightOff]; rfl)⟩

theorem getLeft_setLeft : (cc.setLeft z v).getLeft y = if y = z then v else cc.getLeft y :=
  (get_set_of_isEntry hy hz (by decide) (by decide)).trans (by simp; rfl)

theorem getRight_setRight : (cc.setRight z v).getRight y = if y = z then v else cc.getRight y :=
  (get_set_of_isEntry hy hz (by decide) (by decide)).trans (by simp; rfl)

theorem getLeft_setRight : (cc.setRight z v).getLeft y = cc.getLeft y :=
  (get_set_of_isEntry hy hz (by decide) (by decide)).trans (by simp [treeLeftOff, treeRightOff]; rfl)

theorem getRight_setLeft : (cc.setLeft z v).getRight y = cc.getRight y :=
  (get_set_of_isEntry hy hz (by decide) (by decide)).trans (by simp [treeLeftOff, treeRightOff]; rfl)

-- A write to a tree field leaves the list fields.
theorem list_setLeft : (cc.setLeft z v).getPrev y = cc.getPrev y ∧
    (cc.setLeft z v).getNext y = cc.getNext y :=
  ⟨(get_set_of_isEntry hy hz (by decide) (by decide)).trans (by simp [listPrevOff, treeLeftOff]; rfl),
    (get_set_of_isEntry hy hz (by decide) (by decide)).trans (by simp [listNextOff, treeLeftOff]; rfl)⟩

theorem list_setRight : (cc.setRight z v).getPrev y = cc.getPrev y ∧
    (cc.setRight z v).getNext y = cc.getNext y :=
  ⟨(get_set_of_isEntry hy hz (by decide) (by decide)).trans (by simp [listPrevOff, treeRightOff]; rfl),
    (get_set_of_isEntry hy hz (by decide) (by decide)).trans (by simp [listNextOff, treeRightOff]; rfl)⟩

end Fields

@[simp] theorem linked_nil : cc.Linked p [] n := trivial

@[simp] theorem linked_cons : cc.Linked p (x :: l) n ↔
    cc.getPrev x = p ∧ cc.getNext x = l.headD n ∧ cc.Linked x l n :=
  Iff.rfl

theorem headD_append : (a ++ b).headD n = a.headD (b.headD n) := by
  cases a <;> rfl

theorem linked_append : cc.Linked p (a ++ b) n ↔
    cc.Linked p a (b.headD n) ∧ cc.Linked (a.getLastD p) b n := by
  induction a generalizing p with
  | nil => simp
  | cons x a ih => simp only [List.cons_append, linked_cons, ih, List.getLastD_cons, headD_append, and_assoc]

theorem Linked.prev_head (h : cc.Linked p l n) (hy : l.head? = some y) : cc.getPrev y = p := by
  cases l <;> simp_all

theorem Linked.next_last (h : cc.Linked p l n) (hy : l.getLast? = some y) : cc.getNext y = n := by
  induction l generalizing p with
  | nil => cases hy
  | cons x l ih =>
    cases l with
    | nil => obtain rfl := Option.some.inj hy; exact h.2.1
    | cons w l => exact ih h.2.2 (List.getLast?_cons_cons ▸ hy)

-- The chain reads only the links it names: those of its first and last entries may change
-- together with the ends `p` and `n` they are read against.
theorem Linked.congr (h : cc.Linked p l n) (hl : l.Nodup)
    (hp : ∀ y ∈ l, l.head? ≠ some y → cc'.getPrev y = cc.getPrev y)
    (hp' : ∀ y, l.head? = some y → cc'.getPrev y = p')
    (hn : ∀ y ∈ l, l.getLast? ≠ some y → cc'.getNext y = cc.getNext y)
    (hn' : ∀ y, l.getLast? = some y → cc'.getNext y = n') : cc'.Linked p' l n' := by
  induction l generalizing p p' with
  | nil => trivial
  | cons x l ih =>
    obtain ⟨-, hx, h⟩ := h
    obtain ⟨hxl, hl⟩ := List.nodup_cons.mp hl
    have hne : ∀ y ∈ l, y ≠ x := fun y hy e => hxl (e ▸ hy)
    have hlast : ∀ y ∈ l, (x :: l).getLast? = l.getLast? := fun y hy => by
      cases l with
      | nil => cases hy
      | cons w l => exact List.getLast?_cons_cons
    refine ⟨hp' x rfl, ?_, ih h hl (fun y hy _ => ?_) (fun y hy => ?_) (fun y hy hy' => ?_)
      (fun y hy' => ?_)⟩
    · cases l with
      | nil => exact hn' x rfl
      | cons w l =>
        rw [hn x (.head _) fun e => hxl ?_, hx]
        · rfl
        · rw [hlast w (.head _)] at e; exact List.mem_of_mem_getLast? e
    · exact hp y (.tail _ hy) fun e => hne y hy (Option.some.inj e).symm
    · have hy' := List.mem_of_mem_head? hy
      rw [hp y (.tail _ hy') fun e => hne y hy' (Option.some.inj e).symm]
      exact h.prev_head hy
    · exact hn y (.tail _ hy) (by rwa [hlast y hy])
    · exact hn' y (by rwa [hlast y (List.mem_of_mem_getLast? hy')])

theorem Linked.frame (h : cc.Linked p l n)
    (hs : ∀ y ∈ l, cc'.getPrev y = cc.getPrev y ∧ cc'.getNext y = cc.getNext y) :
    cc'.Linked p l n := by
  induction l generalizing p with
  | nil => trivial
  | cons x l ih =>
    obtain ⟨hp, hn, h⟩ := h
    simp only [List.mem_cons, forall_eq_or_imp] at hs
    exact ⟨hs.1.1.trans hp, hs.1.2.trans hn, ih h hs.2⟩

theorem LruList.frame (h : cc.LruList l) (hh : cc'.head = cc.head) (ht : cc'.tail = cc.tail)
    (hs : ∀ y ∈ l, cc'.getPrev y = cc.getPrev y ∧ cc'.getNext y = cc.getNext y) :
    cc'.LruList l :=
  ⟨h.nodup, h.entry, hh.trans h.head, ht.trans h.tail, h.linked.frame hs⟩

theorem LruList.fill (h : cc.LruList l) : (cc.fill x k params).LruList l :=
  h.frame rfl rfl fun _ _ => ⟨rfl, rfl⟩

theorem LruList.ne_addrNull (h : cc.LruList l) (hy : y ∈ l) : y ≠ addrNull :=
  (h.entry y hy).ne_addrNull

theorem LruList.head_eq_addrNull (h : cc.LruList l) : cc.head = addrNull ↔ l = [] := by
  cases l with
  | nil => simpa using h.head
  | cons x l => simpa [h.head] using h.ne_addrNull (.head _)

theorem LruList.tail_eq_addrNull (h : cc.LruList l) : cc.tail = addrNull ↔ l = [] := by
  rcases List.eq_nil_or_concat l with rfl | ⟨l, x, rfl⟩
  · simpa using h.tail
  · simpa [h.tail, List.getLastD_eq_getLast?] using h.ne_addrNull (by simp)

-- The list operations write list fields only.
structure ListOnly (cc cc' : SessionCacheLru) : Prop where
  sessionId : cc'.store.sessionId = cc.store.sessionId
  storeLen  : cc'.storeLen = cc.storeLen
  storePtr  : cc'.storePtr = cc.storePtr
  root      : cc'.root = cc.root
  tree      : ∀ y, IsEntry y → cc'.getLeft y = cc.getLeft y ∧ cc'.getRight y = cc.getRight y

theorem getLastD_append_cons : (l ++ y :: b).getLastD x = b.getLastD y := by
  induction l generalizing x with
  | nil => simp only [List.nil_append, List.getLastD_cons]
  | cons z l ih => simp only [List.cons_append, List.getLastD_cons, ih]

section PushHead

variable (hx : IsEntry x) (hh : cc.head = addrNull ∨ IsEntry cc.head)
include hx hh

theorem pushHead_getPrev (hy : IsEntry y) : (cc.pushHead x).getPrev y =
    if y = x then addrNull else if y = cc.head then x else cc.getPrev y := by
  unfold pushHead
  rcases hh with hh | hh
  · rw [if_pos hh]
    simp only [getPrev_setHead, getPrev_setNext hy hx, getPrev_setPrev hy hx, getPrev_setTail, setTail_head]
    simp [hh, hy.ne_addrNull]
  · rw [if_neg hh.ne_addrNull]
    simp only [getPrev_setHead, getPrev_setNext hy hx, getPrev_setPrev hy hx, getPrev_setPrev hy hh]

theorem pushHead_getNext (hy : IsEntry y) : (cc.pushHead x).getNext y =
    if y = x then cc.head else cc.getNext y := by
  unfold pushHead
  rcases hh with hh | hh
  · rw [if_pos hh]
    simp only [getNext_setHead, getNext_setNext hy hx, getNext_setPrev hy hx, getNext_setTail, setTail_head]
  · rw [if_neg hh.ne_addrNull]
    simp only [getNext_setHead, getNext_setNext hy hx, getNext_setPrev hy hx,
      getNext_setPrev hy hh, set_head]

theorem pushHead_listOnly : ListOnly cc (cc.pushHead x) := by
  unfold pushHead
  rcases hh with hh | hh
  · rw [if_pos hh]
    refine ⟨by simp, by simp, by simp, by simp, fun y hy => ?_⟩
    simp only [getLeft_setHead, getRight_setHead, (tree_setNext hy hx).1,
      (tree_setNext hy hx).2, (tree_setPrev hy hx).1, (tree_setPrev hy hx).2, getLeft_setTail,
      getRight_setTail, and_self]
  · rw [if_neg hh.ne_addrNull]
    refine ⟨by simp, by simp, by simp, by simp, fun y hy => ?_⟩
    simp only [getLeft_setHead, getRight_setHead, (tree_setNext hy hx).1,
      (tree_setNext hy hx).2, (tree_setPrev hy hx).1, (tree_setPrev hy hx).2,
      (tree_setPrev hy hh).1, (tree_setPrev hy hh).2, and_self]

end PushHead

theorem pushHead_head : (cc.pushHead x).head = x := rfl

theorem pushHead_tail : (cc.pushHead x).tail = if cc.head = addrNull then x else cc.tail := by
  unfold pushHead; split <;> simp

section MoveToHead

variable (hx : IsEntry x) (hp : IsEntry (cc.getPrev x))
  (hn : cc.getNext x = addrNull ∨ IsEntry (cc.getNext x)) (hh : IsEntry cc.head)
include hx hp hn hh

theorem moveToHead_getPrev (hy : IsEntry y) : (cc.moveToHead x).getPrev y =
    if y = x then addrNull else if y = cc.head then x
    else if y = cc.getNext x then cc.getPrev x else cc.getPrev y := by
  unfold moveToHead
  dsimp only []
  rcases hn with hn | hn
  · rw [if_pos hn]
    simp only [getPrev_setHead, getPrev_setPrev hy hx, getPrev_setNext hy hx, set_head,
      getPrev_setPrev hy hh, getPrev_setTail, setTail_head, getPrev_setNext hy hp]
    simp [hn, hy.ne_addrNull]
  · rw [if_neg hn.ne_addrNull]
    simp only [getPrev_setHead, getPrev_setPrev hy hx, getPrev_setNext hy hx, set_head,
      getPrev_setPrev hy hh, getPrev_setPrev hy hn, getPrev_setNext hy hp]

theorem moveToHead_getNext (hy : IsEntry y) : (cc.moveToHead x).getNext y =
    if y = x then cc.head else if y = cc.getPrev x then cc.getNext x else cc.getNext y := by
  unfold moveToHead
  dsimp only []
  rcases hn with hn | hn
  · rw [if_pos hn]
    simp only [getNext_setHead, getNext_setPrev hy hx, getNext_setNext hy hx, set_head,
      getNext_setPrev hy hh, getNext_setTail, setTail_head, getNext_setNext hy hp, hn]
  · rw [if_neg hn.ne_addrNull]
    simp only [getNext_setHead, getNext_setPrev hy hx, getNext_setNext hy hx, set_head,
      getNext_setPrev hy hh, getNext_setPrev hy hn, getNext_setNext hy hp]

theorem moveToHead_listOnly : ListOnly cc (cc.moveToHead x) := by
  unfold moveToHead
  dsimp only []
  rcases hn with hn | hn
  · rw [if_pos hn]
    refine ⟨by simp, by simp, by simp, by simp, fun y hy => ?_⟩
    simp only [getLeft_setHead, getRight_setHead, (tree_setPrev hy hx).1, (tree_setPrev hy hx).2,
      (tree_setNext hy hx).1, (tree_setNext hy hx).2, set_head, (tree_setPrev hy hh).1,
      (tree_setPrev hy hh).2, getLeft_setTail, getRight_setTail, setTail_head, (tree_setNext hy hp).1,
      (tree_setNext hy hp).2, and_self]
  · rw [if_neg hn.ne_addrNull]
    refine ⟨by simp, by simp, by simp, by simp, fun y hy => ?_⟩
    simp only [getLeft_setHead, getRight_setHead, (tree_setPrev hy hx).1, (tree_setPrev hy hx).2,
      (tree_setNext hy hx).1, (tree_setNext hy hx).2, set_head, (tree_setPrev hy hh).1,
      (tree_setPrev hy hh).2, (tree_setPrev hy hn).1, (tree_setPrev hy hn).2,
      (tree_setNext hy hp).1, (tree_setNext hy hp).2, and_self]

end MoveToHead

theorem moveToHead_head : (cc.moveToHead x).head = x := rfl

theorem moveToHead_tail : (cc.moveToHead x).tail =
    if cc.getNext x = addrNull then cc.getPrev x else cc.tail := by
  unfold moveToHead; dsimp only []; split <;> simp

section UnlinkTail

variable (hp : cc.getPrev cc.tail = addrNull ∨ IsEntry (cc.getPrev cc.tail))
include hp

theorem unlinkTail_getPrev (hy : IsEntry y) : cc.unlinkTail.getPrev y = cc.getPrev y := by
  unfold unlinkTail
  simp only [setTail_tail]
  rcases hp with hp | hp
  · rw [if_pos hp]; rfl
  · rw [if_neg hp.ne_addrNull]; exact getPrev_setNext hy hp

theorem unlinkTail_getNext (hy : IsEntry y) : cc.unlinkTail.getNext y =
    if y = cc.getPrev cc.tail then addrNull else cc.getNext y := by
  unfold unlinkTail
  simp only [setTail_tail]
  rcases hp with hp | hp
  · rw [if_pos hp, hp, if_neg hy.ne_addrNull]; rfl
  · rw [if_neg hp.ne_addrNull]; exact getNext_setNext hy hp

theorem unlinkTail_listOnly : ListOnly cc cc.unlinkTail := by
  unfold unlinkTail
  simp only [setTail_tail]
  rcases hp with hp | hp
  · rw [if_pos hp]; exact ⟨rfl, rfl, rfl, rfl, fun _ _ => ⟨rfl, rfl⟩⟩
  · rw [if_neg hp.ne_addrNull]; exact ⟨rfl, rfl, rfl, rfl, fun y hy => tree_setNext hy hp⟩

end UnlinkTail

theorem unlinkTail_head : cc.unlinkTail.head =
    if cc.getPrev cc.tail = addrNull then addrNull else cc.head := by
  by_cases h : cc.getPrev cc.tail = addrNull <;> simp [unlinkTail, h]

theorem unlinkTail_tail : cc.unlinkTail.tail = cc.getPrev cc.tail := by
  by_cases h : cc.getPrev cc.tail = addrNull <;> simp [unlinkTail, h]

theorem LruList.unlinkTail (h : cc.LruList (l ++ [x])) :
    cc.tail = x ∧ cc.unlinkTail.LruList l ∧ ListOnly cc cc.unlinkTail := by
  have ht : cc.tail = x := by simpa [List.getLastD_eq_getLast?] using h.tail
  obtain ⟨hl, hp, -, -⟩ := linked_append.mp h.linked
  have hnd := (List.nodup_append.mp h.nodup).1
  have he : ∀ y ∈ l, IsEntry y := fun y hy => h.entry y (by simp [hy])
  have hp' : cc.getPrev cc.tail = addrNull ∨ IsEntry (cc.getPrev cc.tail) := by
    rw [ht, hp]
    rcases List.eq_nil_or_concat l with rfl | ⟨l, w, rfl⟩
    · exact .inl rfl
    · simp only [List.concat_eq_append, List.getLastD_concat] at he ⊢; exact .inr (he w (by simp))
  refine ⟨ht, ⟨hnd, he, ?_, ?_, hl.congr hnd (fun y hy _ => ?_) (fun y hy => ?_)
    (fun y hy hy' => ?_) (fun y hy => ?_)⟩, unlinkTail_listOnly hp'⟩
  · rw [unlinkTail_head, ht, hp]
    rcases List.eq_nil_or_concat l with rfl | ⟨l, w, rfl⟩
    · rfl
    · simp only [List.concat_eq_append, List.getLastD_concat] at he ⊢
      simpa [(he w (by simp)).ne_addrNull, headD_append] using h.head
  · rw [unlinkTail_tail, ht, hp]
  · exact unlinkTail_getPrev hp' (he y hy)
  · rw [unlinkTail_getPrev hp' (he y (List.mem_of_mem_head? hy))]; exact hl.prev_head hy
  · rw [unlinkTail_getNext hp' (he y hy), if_neg]
    rw [ht, hp, List.getLastD_eq_getLast?]
    rcases hg : l.getLast? with _ | w
    · exact fun e => (he y hy).ne_addrNull e
    · exact fun e => hy' (hg.trans (congrArg _ e.symm))
  · rw [unlinkTail_getNext hp' (he y (List.mem_of_mem_getLast? hy)), if_pos]
    rw [ht, hp, List.getLastD_eq_getLast?, hy]; rfl

theorem LruList.pushHead (h : cc.LruList l) (hx : IsEntry x) (hxl : x ∉ l) :
    (cc.pushHead x).LruList (x :: l) ∧ ListOnly cc (cc.pushHead x) := by
  have hh : cc.head = addrNull ∨ IsEntry cc.head := by
    cases l with
    | nil => exact .inl h.head
    | cons w l => exact .inr (h.head ▸ h.entry w (.head _))
  have he : ∀ y ∈ l, IsEntry y ∧ y ≠ x := fun y hy => ⟨h.entry y hy, fun e => hxl (e ▸ hy)⟩
  refine ⟨⟨List.nodup_cons.mpr ⟨hxl, h.nodup⟩, ?_, rfl, ?_, ?_⟩, pushHead_listOnly hx hh⟩
  · simpa [hx] using fun y hy => (he y hy).1
  · rw [pushHead_tail]
    cases l with
    | nil => simp [h.head]
    | cons w l => simp [h.head, h.tail, (h.entry w (.head _)).ne_addrNull]
  · refine ⟨by simp [pushHead_getPrev hx hh hx], by simp [pushHead_getNext hx hh hx, h.head],
      h.linked.congr h.nodup (fun y hy hy' => ?_) (fun y hy => ?_) (fun y hy _ => ?_)
      (fun y hy => ?_)⟩
    · rw [pushHead_getPrev hx hh (he y hy).1, if_neg (he y hy).2, if_neg]
      rw [h.head]; rintro rfl
      cases l with
      | nil => cases hy
      | cons w l => exact hy' rfl
    · have hy' := he y (List.mem_of_mem_head? hy)
      rw [pushHead_getPrev hx hh hy'.1, if_neg hy'.2, if_pos]
      rw [h.head, List.headD_eq_head?, hy]; rfl
    · rw [pushHead_getNext hx hh (he y hy).1, if_neg (he y hy).2]
    · have hy' := he y (List.mem_of_mem_getLast? hy)
      rw [pushHead_getNext hx hh hy'.1, if_neg hy'.2]; exact h.linked.next_last hy

theorem LruList.moveToHead (h : cc.LruList (a ++ x :: b)) (ha : a ≠ []) :
    (cc.moveToHead x).LruList (x :: (a ++ b)) ∧ ListOnly cc (cc.moveToHead x) := by
  obtain ⟨hA, hpx, hnx, hB⟩ := linked_append.mp h.linked
  obtain ⟨hna, hnb, hdis⟩ := List.nodup_append.mp h.nodup
  obtain ⟨hxb, hnb⟩ := List.nodup_cons.mp hnb
  have hxa : x ∉ a := fun hx => hdis hx (.head _)
  have hab : ∀ y ∈ a, y ∉ b := fun y hy hb => hdis hy (.tail _ hb)
  have hea : ∀ y ∈ a, IsEntry y := fun y hy => h.entry y (by simp [hy])
  have heb : ∀ y ∈ b, IsEntry y := fun y hy => h.entry y (by simp [hy])
  have hex : IsEntry x := h.entry x (by simp)
  obtain ⟨w, a, rfl⟩ := List.exists_cons_of_ne_nil ha
  have hhead : cc.head = w := by simpa using h.head
  have hpa : cc.getPrev x ∈ w :: a := by
    rw [hpx, List.getLastD_cons, List.getLastD_eq_getLast?]
    rcases hg : a.getLast? with _ | v
    · exact .head _
    · exact .tail _ (List.mem_of_mem_getLast? hg)
  -- the entries around `x`, which `moveToHead` relinks
  have hnot_next : ∀ y, IsEntry y → y ∉ b → y ≠ cc.getNext x := by
    rintro y hy hyb rfl
    rw [hnx] at hyb hy
    cases b with
    | nil => exact hy.ne_addrNull rfl
    | cons v b => exact hyb (.head _)
  have hn : cc.getNext x = addrNull ∨ IsEntry (cc.getNext x) := by
    rw [hnx]; cases b with
    | nil => exact .inl rfl
    | cons v b => exact .inr (heb v (.head _))
  have hp := hea _ hpa
  have hh : IsEntry cc.head := hhead ▸ hea w (.head _)
  refine ⟨⟨List.nodup_middle.mp h.nodup, fun y hy => h.entry y (List.perm_middle.mem_iff.mpr hy),
    moveToHead_head, ?_, ?_⟩, moveToHead_listOnly hex hp hn hh⟩
  · rw [moveToHead_tail, h.tail]
    cases b with
    | nil => simp [hnx, hpx]
    | cons v b =>
      rw [hnx, List.headD_cons, if_neg (heb v (.head _)).ne_addrNull, List.getLastD_cons,
        getLastD_append_cons, getLastD_append_cons, List.getLastD_cons]
  · have hpx' : cc.getPrev x = a.getLastD w := by rw [hpx, List.getLastD_cons]
    have hlast : ∀ y, (w :: a).getLast? = some y ↔ y = cc.getPrev x := fun y => by
      rw [List.getLast?_cons, hpx', List.getLastD_eq_getLast?, Option.some.injEq, eq_comm]
    have hxw : ∀ y ∈ w :: a, y ≠ x := fun y hy e => hxa (e ▸ hy)
    have hbx : ∀ y ∈ b, y ≠ x ∧ y ≠ cc.head ∧ y ≠ cc.getPrev x := fun y hy =>
      ⟨fun e => hxb (e ▸ hy), fun e => hab w (.head _) (hhead ▸ e ▸ hy),
        fun e => hab _ hpa (e ▸ hy)⟩
    have hgp := fun y => @moveToHead_getPrev cc x y hex hp hn hh
    have hgn := fun y => @moveToHead_getNext cc x y hex hp hn hh
    refine ⟨by simp [hgp x hex], by simp [hgn x hex, hhead], linked_append.mpr
      ⟨hA.congr hna (fun y hy hy' => ?_) (fun y hy => ?_) (fun y hy hy' => ?_) (fun y hy => ?_),
        ?_⟩⟩
    · rw [hgp y (hea y hy), if_neg (hxw y hy), if_neg (by rw [hhead]; exact fun e => hy' (e ▸ rfl)),
        if_neg (hnot_next y (hea y hy) (hab y hy))]
    · obtain rfl : w = y := by simpa using hy
      rw [hgp w (hea w (.head _)), if_neg (hxw w (.head _)), if_pos hhead.symm]
    · rw [hgn y (hea y hy), if_neg (hxw y hy), if_neg (fun e => hy' ((hlast y).mpr e))]
    · rw [hgn y (hea y (List.mem_of_mem_getLast? hy)), if_neg (hxw y (List.mem_of_mem_getLast? hy)),
        if_pos ((hlast y).mp hy), hnx]
    · rw [List.getLastD_cons, ← hpx']
      refine hB.congr hnb (fun y hy hy' => ?_) (fun y hy => ?_) (fun y hy _ => ?_) (fun y hy => ?_)
      · obtain ⟨h₁, h₂, -⟩ := hbx y hy
        rw [hgp y (heb y hy), if_neg h₁, if_neg h₂, if_neg]
        rw [hnx, List.headD_eq_head?]
        rcases hg : b.head? with _ | v
        · exact fun e => (heb y hy).ne_addrNull e
        · exact fun e => hy' (e ▸ hg)
      · have hy' := List.mem_of_mem_head? hy
        obtain ⟨h₁, h₂, -⟩ := hbx y hy'
        rw [hgp y (heb y hy'), if_neg h₁, if_neg h₂, if_pos]
        rw [hnx, List.headD_eq_head?, hy]; rfl
      · obtain ⟨h₁, -, h₃⟩ := hbx y hy
        rw [hgn y (heb y hy), if_neg h₁, if_neg h₃]
      · have hy' := List.mem_of_mem_getLast? hy
        obtain ⟨h₁, -, h₃⟩ := hbx y hy'
        rw [hgn y (heb y hy'), if_neg h₁, if_neg h₃]; exact hB.next_last hy

-- An entry is the head exactly when no entry comes before it.
theorem LruList.nil_iff_head (h : cc.LruList (a ++ x :: b)) : a = [] ↔ x = cc.head := by
  refine ⟨by rintro rfl; simpa using h.head.symm, fun hx => ?_⟩
  rcases a with _ | ⟨v, a⟩
  · rfl
  · have hxv : x = v := by simpa using hx.trans h.head
    exact ((List.nodup_append.mp h.nodup).2.2 (by simp [hxv]) (List.mem_cons_self x b)).elim

end BearSSL.SessionCacheLru
