import BearSSL.Lru.List
import BearSSL.Lru.Tree

namespace BearSSL

namespace SessionCacheLru

-- The tree fields hold null or an entry handed out below `ptr`, from the root and from every
-- such entry.
structure TreeLinks (ptr : Nat) (cc : SessionCacheLru) : Prop where
  entry : ∀ x, Allocated ptr x → IsEntry x
  root : Valid ptr cc.root
  child : ∀ x, Allocated ptr x → Valid ptr (cc.getLeft x) ∧ Valid ptr (cc.getRight x)

-- The address `set_link` may be handed: null for the root, else a tree field of an entry
-- handed out below `ptr`.
def LinkAddr (ptr : Nat) (al : UInt32) : Prop :=
  al = addrNull ∨ ∃ p, Allocated ptr p ∧ LinkOf p al

-- The tree operations write tree fields only.
structure TreeOnly (cc cc' : SessionCacheLru) : Prop where
  sessionId : cc'.store.sessionId = cc.store.sessionId
  storeLen  : cc'.storeLen = cc.storeLen
  storePtr  : cc'.storePtr = cc.storePtr
  head      : cc'.head = cc.head
  tail      : cc'.tail = cc.tail
  list      : ∀ y, IsEntry y → cc'.getPrev y = cc.getPrev y ∧ cc'.getNext y = cc.getNext y

variable {cc cc' c : SessionCacheLru} {ptr ptr' fuel off : Nat} {x y w v al : UInt32} {k : SessionId}
  {s : UInt32 × UInt32} {mask : SessionId → SessionId} {params out : Params}
  {slot : Option UInt32} {found : Bool}

theorem TreeOnly.trans (h : TreeOnly cc cc') (h' : TreeOnly cc' cc'') : TreeOnly cc cc'' :=
  ⟨h'.sessionId.trans h.sessionId, h'.storeLen.trans h.storeLen, h'.storePtr.trans h.storePtr,
    h'.head.trans h.head, h'.tail.trans h.tail, fun y hy =>
      ⟨(h'.list y hy).1.trans (h.list y hy).1, (h'.list y hy).2.trans (h.list y hy).2⟩⟩

theorem setLink_treeOnly (hw : w = addrNull ∨ ∃ p, IsEntry p ∧ LinkOf p w) :
    TreeOnly cc (cc.setLink w v) := by
  refine ⟨by simp, by simp, by simp, by simp, by simp, fun y hy => ?_⟩
  have hne : ∀ off, off = listPrevOff ∨ off = listNextOff → w ≠ y + off.toUInt32 := by
    rintro off ho rfl
    rcases hw with hw | ⟨p, hp, hl⟩
    · rcases ho with rfl | rfl <;> exact hy.add_ne_addrNull (by decide) hw
    · rcases ho with rfl | rfl <;> rcases hl with hl | hl <;>
        exact absurd ((hy.add_eq_add_iff hp (by decide) (by decide)).mp hl).2 (by decide)
  exact ⟨(get_setLink hy (by decide)).trans (if_neg (hne _ (.inl rfl))),
    (get_setLink hy (by decide)).trans (if_neg (hne _ (.inr rfl)))⟩

theorem TreeLinks.setLink (ht : TreeLinks ptr cc) (hv : Valid ptr v) :
    TreeLinks ptr (cc.setLink w v) := by
  refine ⟨ht.entry, ?_, fun y hy => ?_⟩
  · rw [setLink_root]; split
    · exact hv
    · exact ht.root
  · rw [getLeft_setLink (ht.entry y hy), getRight_setLink (ht.entry y hy)]
    constructor <;> split
    all_goals first | exact hv | exact (ht.child y hy).1 | exact (ht.child y hy).2

-- One step of a descent keeps to valid links.
theorem TreeLinks.step (ht : TreeLinks ptr cc) (hx : Allocated ptr x)
    (ho : off = treeLeftOff ∨ off = treeRightOff) :
    Valid ptr (cc.get off x) ∧ LinkAddr ptr (x + off.toUInt32) := by
  refine ⟨?_, .inr ⟨x, hx, ?_⟩⟩
  · rcases ho with rfl | rfl
    exacts [(ht.child x hx).1, (ht.child x hx).2]
  · rcases ho with rfl | rfl
    exacts [.inl rfl, .inr rfl]

theorem findNode.dir_some (h : findNode.dir cc k x = some off) :
    x ≠ addrNull ∧ (off = treeLeftOff ∨ off = treeRightOff) := by
  unfold findNode.dir at h
  split at h
  · cases h
  · refine ⟨‹_›, ?_⟩
    split at h <;> cases h
    exacts [.inl rfl, .inr rfl]

-- Every state of a `find_node` walk is a valid link, read at a link address.
theorem TreeLinks.findNode_descends (ht : TreeLinks ptr cc)
    (h : cc.Descends (findNode.dir cc k) (cc.root, addrNull) s) :
    Valid ptr s.1 ∧ LinkAddr ptr s.2 :=
  h.inv (fun s => Valid ptr s.1 ∧ LinkAddr ptr s.2) (fun _ _ _ hs hd =>
    have ⟨hx, ho⟩ := findNode.dir_some hd
    ht.step (hs.1.resolve_left hx) ho) ⟨ht.root, .inl rfl⟩

theorem TreeLinks.findNode (ht : TreeLinks ptr cc) (h : cc.findNode fuel k = some (x, al)) :
    Valid ptr x ∧ LinkAddr ptr al :=
  ht.findNode_descends (descend_descends h)

-- Every state of a walk along the left or right links of entries is an entry.
theorem TreeLinks.spine_descends (ht : TreeLinks ptr cc) (ho : off = treeLeftOff ∨ off = treeRightOff)
    (h : cc.Descends (findReplacementNode.dir cc off) (y, al) s) (hy : Allocated ptr y)
    (hal : LinkAddr ptr al) : Allocated ptr s.1 ∧ LinkAddr ptr s.2 :=
  h.inv (fun s => Allocated ptr s.1 ∧ LinkAddr ptr s.2) (fun x al off' hs hd => by
    unfold findReplacementNode.dir at hd
    split at hd
    · cases hd
    · cases hd
      have ⟨hv, hl⟩ := ht.step hs.1 ho
      exact ⟨hv.resolve_left ‹_›, hl⟩) ⟨hy, hal⟩

theorem TreeLinks.findReplacementNode (ht : TreeLinks ptr cc) (hx : Allocated ptr x)
    (h : cc.findReplacementNode fuel x = some (y, al)) : Valid ptr y ∧ LinkAddr ptr al := by
  unfold SessionCacheLru.findReplacementNode at h
  split at h
  · have ⟨hv, hl⟩ := ht.step hx (.inl rfl)
    have := ht.spine_descends (.inr rfl) (descend_descends h) (hv.resolve_left ‹_›) hl
    exact ⟨.inr this.1, this.2⟩
  · split at h
    · have ⟨hv, hl⟩ := ht.step hx (.inr rfl)
      have := ht.spine_descends (.inl rfl) (descend_descends h) (hv.resolve_left ‹_›) hl
      exact ⟨.inr this.1, this.2⟩
    · cases h; exact ⟨.inl rfl, .inl rfl⟩

theorem LinkAddr.linkOf (h : LinkAddr ptr al) (he : ∀ p, Allocated ptr p → IsEntry p) :
    al = addrNull ∨ ∃ p, IsEntry p ∧ LinkOf p al :=
  h.imp_right fun ⟨p, hp, hl⟩ => ⟨p, he p hp, hl⟩

-- `remove_node` rewrites tree links only, and only with null or valid entries.
theorem TreeLinks.removeNode (ht : TreeLinks ptr cc) (hx : Allocated ptr x)
    (h : cc.removeNode fuel x = some cc') : TreeLinks ptr cc' ∧ TreeOnly cc cc' := by
  unfold SessionCacheLru.removeNode at h
  simp only [bind, Option.bind_eq_some', pure, Option.some.injEq] at h
  obtain ⟨⟨f, alx⟩, hf, ⟨y, aly⟩, hr, rfl⟩ := h
  have hfx := ht.findNode hf
  have hry := ht.findReplacementNode hx hr
  exact ⟨(ht.setLink (.inl rfl)).setLink hry.1,
    (setLink_treeOnly (hry.2.linkOf ht.entry)).trans (setLink_treeOnly (hfx.2.linkOf ht.entry))⟩

theorem treeOnly_setLeft (hx : IsEntry x) : TreeOnly cc (cc.setLeft x v) :=
  ⟨rfl, rfl, rfl, rfl, rfl, fun _ hy => list_setLeft hy hx⟩

theorem treeOnly_setRight (hx : IsEntry x) : TreeOnly cc (cc.setRight x v) :=
  ⟨rfl, rfl, rfl, rfl, rfl, fun _ hy => list_setRight hy hx⟩

theorem insertLeaf_treeOnly (hx : IsEntry x) (hw : w = addrNull ∨ ∃ p, IsEntry p ∧ LinkOf p w) :
    TreeOnly cc (cc.insertLeaf w x) :=
  ((setLink_treeOnly hw).trans (treeOnly_setLeft hx)).trans (treeOnly_setRight hx)

-- Hanging the entry `x` as a leaf, where `x` is allocated below `ptr'` and every other entry
-- allocated there already was below `ptr`.
theorem TreeLinks.insertLeaf (ht : TreeLinks ptr cc) (hle : ptr ≤ ptr')
    (he : ∀ y, Allocated ptr' y → IsEntry y) (hx : Allocated ptr' x)
    (hnew : ∀ y, Allocated ptr' y → y = x ∨ Allocated ptr y) :
    TreeLinks ptr' (cc.insertLeaf w x) := by
  refine ⟨he, ?_, fun y hy => ?_⟩
  · simp only [SessionCacheLru.insertLeaf, set_root, setLink_root]
    split
    exacts [.inr hx, ht.root.mono hle]
  · have hy' := he y hy
    have hx' := he x hx
    simp only [SessionCacheLru.insertLeaf, getLeft_setRight hy' hx', getLeft_setLeft hy' hx', getRight_setRight hy' hx',
      getRight_setLeft hy' hx', getLeft_setLink hy', getRight_setLink hy']
    by_cases hyx : y = x
    · simp only [hyx, if_true]; exact ⟨.inl rfl, .inl rfl⟩
    · have hy₀ := (hnew y hy).resolve_left hyx
      simp only [hyx, if_false]
      constructor <;> split
      exacts [.inr hx, (ht.child y hy₀).1.mono hle, .inr hx, (ht.child y hy₀).2.mono hle]

theorem TreeLinks.listOnly (ht : TreeLinks ptr cc) (h : ListOnly cc cc') : TreeLinks ptr cc' :=
  ⟨ht.entry, h.root ▸ ht.root, fun x hx => by
    rw [(h.tree x (ht.entry x hx)).1, (h.tree x (ht.entry x hx)).2]; exact ht.child x hx⟩

-- A state that differs from one with valid tree links in its list links only answers every
-- search alike: the walk meets allocated entries only, whose tree links and keys are kept.
theorem TreeLinks.findNode_listOnly (ht : TreeLinks ptr cc) (h : ListOnly cc cc') :
    cc'.findNode fuel k = cc.findNode fuel k := by
  unfold SessionCacheLru.findNode
  rw [h.root]
  refine descend_congr (Valid ptr) (fun y hy => ⟨by simp only [findNode.dir, key, h.sessionId], fun off hd => ?_⟩)
    ht.root
  obtain ⟨hx, ho⟩ := findNode.dir_some hd
  have hy' := hy.resolve_left hx
  refine ⟨?_, (ht.step hy' ho).1⟩
  have hlr := h.tree y (ht.entry y hy')
  rcases ho with rfl | rfl
  exacts [hlr.1, hlr.2]

theorem LruList.treeOnly (hl : cc.LruList l) (h : TreeOnly cc cc') : cc'.LruList l :=
  hl.frame h.head h.tail fun y hy => h.list y (hl.entry y hy)

-- The invariant of every reachable state: the arithmetic of the block, the tree links, and the
-- LRU list through exactly the allocated entries.
structure Wf (cc : SessionCacheLru) : Prop where
  storeLen_lt : cc.storeLen < UInt32.size
  storePtr_mod : cc.storePtr % lruEntryLen = 0
  storePtr_le : cc.storePtr ≤ cc.storeLen
  tree : TreeLinks cc.storePtr cc
  list : ∃ l, cc.LruList l ∧ ∀ x, x ∈ l ↔ Allocated cc.storePtr x

-- The state in which `lru_save` has found room for the entry `x`: `x` is allocated and out of
-- the list, the tree links are valid below `ptr`, and `x` is the only entry allocated since.
structure Room (ptr : Nat) (cc : SessionCacheLru) (x : UInt32) : Prop where
  storeLen_lt : cc.storeLen < UInt32.size
  storePtr_mod : cc.storePtr % lruEntryLen = 0
  storePtr_le : cc.storePtr ≤ cc.storeLen
  ptr_le : ptr ≤ cc.storePtr
  tree : TreeLinks ptr cc
  alloc : Allocated cc.storePtr x
  fresh : ∀ y, Allocated cc.storePtr y → y = x ∨ Allocated ptr y
  list : ∃ l, cc.LruList l ∧ x ∉ l ∧ ∀ y, y ∈ l ∨ y = x ↔ Allocated cc.storePtr y

theorem Wf.isEntry (h : cc.Wf) (hx : Allocated cc.storePtr x) : IsEntry x :=
  hx.isEntry h.storePtr_le h.storeLen_lt h.storePtr_mod

-- The invariant reads the block's words, its length and pointer, and the list and tree roots.
theorem Wf.congr (h : cc.Wf) (hlen : cc'.storeLen = cc.storeLen) (hptr : cc'.storePtr = cc.storePtr)
    (hh : cc'.head = cc.head) (ht : cc'.tail = cc.tail) (hr : cc'.root = cc.root)
    (hw : cc'.store.word = cc.store.word) : cc'.Wf := by
  have hg : ∀ off y, cc'.get off y = cc.get off y := fun off y => by rw [get_def, get_def, hw]
  obtain ⟨l, hl, hmem⟩ := h.list
  refine ⟨hlen ▸ h.storeLen_lt, hptr ▸ h.storePtr_mod, hlen ▸ hptr ▸ h.storePtr_le,
    ⟨hptr ▸ h.tree.entry, hr ▸ hptr ▸ h.tree.root, fun x hx => ?_⟩,
    ⟨l, hl.frame hh ht fun y _ => ⟨hg _ y, hg _ y⟩, hptr ▸ hmem⟩⟩
  rw [hptr] at hx ⊢
  show Valid _ (cc'.get treeLeftOff x) ∧ Valid _ (cc'.get treeRightOff x)
  rw [hg, hg]; exact h.tree.child x hx

theorem Wf.of_eq {len ptr : Nat} (hlen : cc.storeLen = len) (hptr : cc.storePtr = ptr)
    (hlt : len < UInt32.size) (hmod : ptr % lruEntryLen = 0) (hle : ptr ≤ len)
    (ht : TreeLinks ptr cc) (hl : ∃ l, cc.LruList l ∧ ∀ x, x ∈ l ↔ Allocated ptr x) : cc.Wf := by
  subst hlen hptr; exact ⟨hlt, hmod, hle, ht, hl⟩

-- `fill` writes the data of an entry, which the invariant does not read.
theorem Wf.fill (h : cc.Wf) : (cc.fill x k params).Wf :=
  h.congr rfl rfl rfl rfl rfl rfl

-- `lru_save`'s eviction on a full block: the list tail is the entry reused, the other entries
-- keep their order, and the tree links stay valid.
theorem Wf.evictTail (h : cc.Wf) (hl : cc.LruList (l ++ [t]))
    (hmem : ∀ x, x ∈ l ++ [t] ↔ Allocated cc.storePtr x) (hr : cc.evictTail fuel = some (c, x)) :
    x = t ∧ c.LruList l ∧ TreeLinks cc.storePtr c ∧ c.storePtr = cc.storePtr ∧
      c.storeLen = cc.storeLen := by
  obtain ⟨c', hc, e⟩ := Option.map_eq_some'.mp hr
  cases e
  obtain ⟨ht, hu, hlo⟩ := hl.unlinkTail
  have hta : Allocated cc.storePtr cc.tail := (hmem _).mp (by simp [ht])
  obtain ⟨htr, hto⟩ := (h.tree.listOnly hlo).removeNode (hlo.storePtr ▸ hta) hc
  exact ⟨ht, hu.treeOnly hto, htr, hto.storePtr.trans hlo.storePtr, hto.storeLen.trans hlo.storeLen⟩

-- A full block holds the entry at offset 0 at least, so the list through the allocated entries
-- has a tail.
theorem exists_concat_of_full (hmem : ∀ x, x ∈ l ↔ Allocated cc.storePtr x)
    (hfull : cc.storePtr > cc.storeLen - lruEntryLen) : ∃ l' t, l = l' ++ [t] := by
  rcases List.eq_nil_or_concat l with rfl | ⟨l', t, rfl⟩
  · have : Allocated cc.storePtr 0 := ⟨rfl, by show 0 < cc.storePtr; omega⟩
    exact absurd ((hmem 0).mpr this) (List.not_mem_nil _)
  · exact ⟨l', t, List.concat_eq_append _ _⟩

theorem Wf.makeRoom (h : cc.Wf) (hlen : lruEntryLen ≤ cc.storeLen)
    (hr : cc.makeRoom fuel = some (c, x)) : Room cc.storePtr c x := by
  obtain ⟨l, hl, hmem⟩ := h.list
  unfold SessionCacheLru.makeRoom at hr
  split at hr
  case isTrue hfull =>
    obtain ⟨l, t, rfl⟩ := exists_concat_of_full hmem hfull
    obtain ⟨rfl, hu, htr, hptr, hlen⟩ := h.evictTail hl hmem hr
    have hta : Allocated cc.storePtr x := (hmem x).mp (by simp)
    refine ⟨hlen ▸ h.storeLen_lt, hptr ▸ h.storePtr_mod, hlen ▸ hptr ▸ h.storePtr_le,
      hptr.ge, htr, hptr ▸ hta, fun y hy => .inr (hptr ▸ hy), l, hu,
      fun hm => List.disjoint_of_nodup_append hl.nodup hm (List.mem_singleton_self x), fun y => ?_⟩
    rw [hptr, ← hmem]; simp
  case isFalse hroom =>
    cases hr
    have hlt := h.storeLen_lt
    have hle := h.storePtr_le
    have hmod := h.storePtr_mod
    have hx : (cc.storePtr.toUInt32).toNat = cc.storePtr :=
      UInt32.toNat_ofNat_of_lt (by omega)
    -- the entries below the bumped pointer are the old ones and the new entry
    have hnew : ∀ y, Allocated (cc.storePtr + lruEntryLen) y ↔
        Allocated cc.storePtr y ∨ y = cc.storePtr.toUInt32 := fun y =>
      allocated_add_iff hmod (by omega)
    refine ⟨hlt, by simp only [lruEntryLen] at *; omega,
      by simp only [lruEntryLen] at *; omega, by simp, ⟨h.tree.entry, h.tree.root, h.tree.child⟩,
      (hnew _).mpr (.inr rfl), fun y hy => ((hnew y).mp hy).symm, l,
      hl.frame rfl rfl fun _ _ => ⟨rfl, rfl⟩,
      fun hm => absurd ((hmem _).mp hm).2 (by rw [hx]; omega), fun y => ?_⟩
    rw [hmem]; exact (hnew y).symm

-- The rest of `lru_save`: `x` hung as a leaf at the link `find_node` ends on, pushed on the
-- list, and filled.
theorem Room.insert (hr : Room ptr c x) (hf : c.findNode fuel k = some (g, alx)) :
    (((c.insertLeaf alx x).pushHead x).fill x k params).Wf := by
  have he : ∀ y, Allocated c.storePtr y → IsEntry y := fun y hy =>
    hy.isEntry hr.storePtr_le hr.storeLen_lt hr.storePtr_mod
  have hx := he x hr.alloc
  obtain ⟨l, hl, hxl, hmem⟩ := hr.list
  have hto : TreeOnly c (c.insertLeaf alx x) :=
    insertLeaf_treeOnly hx ((hr.tree.findNode hf).2.linkOf hr.tree.entry)
  obtain ⟨hl', hlo⟩ := (hl.treeOnly hto).pushHead hx hxl
  refine Wf.fill (Wf.of_eq (hlo.storeLen.trans hto.storeLen) (hlo.storePtr.trans hto.storePtr) hr.storeLen_lt
    hr.storePtr_mod hr.storePtr_le ((hr.tree.insertLeaf hr.ptr_le he hr.alloc hr.fresh).listOnly hlo)
    ⟨x :: l, hl', fun y => ?_⟩)
  rw [← hmem, List.mem_cons, or_comm]

theorem Wf.moveToHead (h : cc.Wf) (hv : Valid cc.storePtr x) (hx : x ≠ addrNull) (hh : x ≠ cc.head) :
    (cc.moveToHead x).Wf := by
  obtain ⟨l, hl, hmem⟩ := h.list
  obtain ⟨a, b, rfl⟩ := List.append_of_mem ((hmem x).mpr (hv.resolve_left hx))
  have ha : a ≠ [] := by rintro rfl; exact hh (by simpa using hl.head.symm)
  obtain ⟨hl', hlo⟩ := hl.moveToHead ha
  refine Wf.of_eq hlo.storeLen hlo.storePtr h.storeLen_lt h.storePtr_mod h.storePtr_le (h.tree.listOnly hlo)
    ⟨x :: (a ++ b), hl', fun y => ?_⟩
  rw [← hmem, List.perm_middle.mem_iff]

theorem Wf.lruSave (h : cc.Wf) (hs : cc.lruSave mask fuel params = some (cc', slot)) : cc'.Wf := by
  rcases lruSave_eq_some hs with ⟨-, rfl, -⟩ | ⟨hl, f, al, -, ⟨-, rfl, -⟩ | ⟨-, c, x, g, alx, hr, hf, rfl, -⟩⟩
  · exact h
  · exact h.congr rfl rfl rfl rfl rfl rfl
  · have h₁ : ({ cc with initDone := true } : SessionCacheLru).Wf := h.congr rfl rfl rfl rfl rfl rfl
    exact (h₁.makeRoom hl hr).insert hf

theorem Wf.lruLoad (h : cc.Wf) (hl : cc.lruLoad mask fuel params = some (cc', found, out)) :
    cc'.Wf := by
  rcases lruLoad_eq_some hl with ⟨-, rfl, -⟩ | ⟨-, x, al, hf, ⟨-, rfl, -⟩ | ⟨hx, rfl, -⟩⟩
  · exact h
  · exact h
  · split
    · exact h.moveToHead (h.tree.findNode hf).1 hx ‹_›
    · exact h

theorem Wf.init {s : Store} {len : Nat} (h : len < UInt32.size) : (init s len).Wf :=
  ⟨h, rfl, Nat.zero_le _, ⟨fun _ hx => absurd hx.2 (Nat.not_lt_zero _), .inl rfl,
    fun _ hx => absurd hx.2 (Nat.not_lt_zero _)⟩,
    [], ⟨List.nodup_nil, fun _ hx => absurd hx (List.not_mem_nil _), rfl, rfl, trivial⟩,
    fun _ => ⟨fun hx => absurd hx (List.not_mem_nil _), fun hx => absurd hx.2 (Nat.not_lt_zero _)⟩⟩

theorem Wf.entry_fits (h : cc.Wf) (hx : Allocated cc.storePtr x) :
    x.toNat + lruEntryLen ≤ cc.storeLen :=
  hx.fits h.storePtr_mod h.storePtr_le

-- The state `remove_node` runs on when `lru_save` evicts: the tail unlinked from the list, the
-- tree links untouched.
theorem Wf.unlinkTail (h : cc.Wf) (hfull : cc.storePtr > cc.storeLen - lruEntryLen) :
    TreeLinks cc.storePtr cc.unlinkTail := by
  obtain ⟨l, hl, hmem⟩ := h.list
  obtain ⟨l, t, rfl⟩ := exists_concat_of_full hmem hfull
  exact h.tree.listOnly hl.unlinkTail.2.2

-- The head `lru_save` relinks once it has room for `x`: null or an entry allocated before, and
-- not `x`.
theorem Room.head (hr : Room ptr c x) : Valid ptr c.head ∧ c.head ≠ x := by
  obtain ⟨l, hl, hxl, hmem⟩ := hr.list
  rw [hl.head, List.headD_eq_head?]
  rcases hg : l.head? with _ | y
  · exact ⟨.inl rfl, (hr.alloc.isEntry hr.storePtr_le hr.storeLen_lt hr.storePtr_mod).ne_addrNull.symm⟩
  · have hy := List.mem_of_mem_head? hg
    have hyx : y ≠ x := fun e => hxl (e ▸ hy)
    exact ⟨.inr ((hr.fresh y ((hmem y).mp (.inl hy))).resolve_left hyx), hyx⟩

end SessionCacheLru

variable {mask : SessionId → SessionId} {evs : List Event} {cc : SessionCacheLru}

theorem Exec.wf (h : Exec mask evs cc) : cc.Wf := by
  induction h with
  | init store storeLen h => exact SessionCacheLru.Wf.init h
  | save _ hs ih => exact ih.lruSave hs
  | load _ hl ih => exact ih.lruLoad hl

open SessionCacheLru in
theorem Exec.block_arith (h : Exec mask evs cc) :
    cc.storePtr % lruEntryLen = 0 ∧ cc.storePtr ≤ cc.storeLen ∧
    cc.storePtr.toUInt32.toNat = cc.storePtr ∧
    ∀ x, Allocated cc.storePtr x → x.toNat + lruEntryLen ≤ cc.storeLen ∧ x ≠ addrNull ∧
      x + treeLeftOff.toUInt32 ≠ addrNull ∧ x + treeRightOff.toUInt32 ≠ addrNull := by
  have hw := h.wf
  refine ⟨hw.storePtr_mod, hw.storePtr_le, UInt32.toNat_ofNat_of_lt ?_, fun x hx => ?_⟩
  · have := hw.storePtr_le; have := hw.storeLen_lt; omega
  · have he := hw.isEntry hx
    exact ⟨hw.entry_fits hx, he.ne_addrNull, he.add_ne_addrNull (by decide),
      he.add_ne_addrNull (by decide)⟩

theorem twoSaved_block_arith : Exec id twoSavedRun.1 twoSaved ∧
    twoSaved.storePtr % lruEntryLen = 0 ∧ twoSaved.storePtr ≤ twoSaved.storeLen ∧
    twoSaved.storePtr.toUInt32.toNat = twoSaved.storePtr ∧
    ∀ x, Allocated twoSaved.storePtr x → x.toNat + lruEntryLen ≤ twoSaved.storeLen ∧
      x ≠ addrNull ∧ x + treeLeftOff.toUInt32 ≠ addrNull ∧ x + treeRightOff.toUInt32 ≠ addrNull :=
  ⟨twoSaved_exec, Exec.block_arith twoSaved_exec⟩

open SessionCacheLru in
theorem Exec.lru_list_wf (h : Exec mask evs cc) :
    ∃ l : List UInt32, l.Nodup ∧ (∀ x, x ∈ l ↔ Allocated cc.storePtr x) ∧
      cc.head = l.headD addrNull ∧ cc.tail = l.getLastD addrNull ∧
      cc.Linked addrNull l addrNull ∧ (cc.head = addrNull ∧ cc.tail = addrNull ↔ cc.storePtr = 0) := by
  obtain ⟨l, hl, hmem⟩ := h.wf.list
  refine ⟨l, hl.nodup, hmem, hl.head, hl.tail, hl.linked, ?_⟩
  rw [hl.head_eq_addrNull, hl.tail_eq_addrNull, and_self]
  constructor
  · rintro rfl
    by_contra hp
    exact List.not_mem_nil _ ((hmem 0).mpr ⟨rfl, by show 0 < cc.storePtr; omega⟩)
  · intro hp
    exact List.eq_nil_iff_forall_not_mem.mpr fun x hx => absurd ((hmem x).mp hx).2 (by omega)

theorem twoSaved_lru_list_wf : Exec id twoSavedRun.1 twoSaved ∧
    ∃ l : List UInt32, l.Nodup ∧ (∀ x, x ∈ l ↔ Allocated twoSaved.storePtr x) ∧
      twoSaved.head = l.headD addrNull ∧ twoSaved.tail = l.getLastD addrNull ∧
      twoSaved.Linked addrNull l addrNull ∧
      (twoSaved.head = addrNull ∧ twoSaved.tail = addrNull ↔ twoSaved.storePtr = 0) :=
  ⟨twoSaved_exec, Exec.lru_list_wf twoSaved_exec⟩

end BearSSL
