import BearSSL.Lru.LruMap
import BearSSL.Lru.Theorems.Provenance
import Mathlib.Data.Finset.Card

namespace BearSSL.SessionCacheLru

variable (cc : SessionCacheLru)

-- The entry at `x` as the abstract map holds it.
def entryOf (x : UInt32) : LruEntry :=
  ⟨cc.key x, cc.store.version (x.toNat + versionOff), cc.store.cipherSuite (x.toNat + cipherSuiteOff),
    cc.store.masterSecret (x.toNat + masterSecretOff)⟩

variable {cc} {cc' c : SessionCacheLru} {l l' : List UInt32} {t : Tree} {es : List LruEntry}
  {x y : UInt32} {k : SessionId} {fuel : Nat} {mask : SessionId → SessionId} {params : Params}

theorem SameData.entryOf_eq (h : SameData cc cc') : cc'.entryOf = cc.entryOf := by
  funext x; simp only [SessionCacheLru.entryOf, key, h.sessionId, h.masterSecret, h.version, h.cipherSuite]

theorem SearchTree.frame (ht : cc.SearchTree t) (hr : cc'.root = cc.root)
    (hs : ∀ y ∈ t.nodes, cc'.getLeft y = cc.getLeft y ∧ cc'.getRight y = cc.getRight y)
    (hk : ∀ y ∈ t.nodes, cc'.key y = cc.key y) : cc'.SearchTree t := by
  refine ⟨?_, (List.map_congr_left hk).symm ▸ ht.sorted, ht.entry⟩
  rw [hr]; exact ht.rep.frame hs

theorem SearchTree.listOnly (ht : cc.SearchTree t) (h : ListOnly cc cc') : cc'.SearchTree t :=
  ht.frame h.root (fun y hy => h.tree y (ht.entry y hy)) fun y _ => by simp only [key, h.sessionId]

-- Before the block first fills, the cache holds the abstract LRU map `es`: its LRU list `l`
-- carries `es` in order, and its tree `t` is a search tree over the same entries.
structure Abstracts (cc : SessionCacheLru) (l : List UInt32) (t : Tree) (es : List LruEntry) :
    Prop where
  wf : cc.Wf
  list : cc.LruList l
  mem : ∀ x, x ∈ l ↔ Allocated cc.storePtr x
  tree : cc.SearchTree t
  perm : t.nodes.Perm l
  entries : es = l.map cc.entryOf
  storePtr_eq : cc.storePtr = lruEntryLen * l.length
  not_init : cc.initDone = false → l = []

theorem Abstracts.init {s : Store} {len : Nat} (h : len < UInt32.size) :
    Abstracts (init s len) [] .nil [] :=
  ⟨Wf.init h, ⟨List.nodup_nil, fun _ hx => absurd hx (List.not_mem_nil _), rfl, rfl, trivial⟩,
    fun _ => ⟨fun hx => absurd hx (List.not_mem_nil _), fun hx => absurd hx.2 (Nat.not_lt_zero _)⟩,
    ⟨.nil, List.Pairwise.nil, fun _ hx => absurd hx (List.not_mem_nil _)⟩, List.Perm.refl _, rfl, rfl,
    fun _ => rfl⟩

section Abstracts

variable (h : Abstracts cc l t es)
include h

theorem Abstracts.length_lt (hfuel : cc.storeLen / lruEntryLen < fuel) : t.nodes.length < fuel := by
  have := h.wf.storePtr_le
  have := h.storePtr_eq
  rw [h.perm.length_eq]
  simp only [lruEntryLen] at *
  omega

theorem Abstracts.key_inj (hx : x ∈ l) (hy : y ∈ l) (hk : cc.key x = cc.key y) : x = y :=
  h.tree.key_inj (h.perm.mem_iff.mpr hx) (h.perm.mem_iff.mpr hy) hk

theorem Abstracts.find?_of_mem (hx : x ∈ l) :
    es.find? (·.id = cc.key x) = some (cc.entryOf x) := by
  rw [h.entries, List.find?_map]
  have hs : (l.find? ((·.id = cc.key x) ∘ cc.entryOf)).isSome :=
    List.find?_isSome.mpr ⟨x, hx, by simp [entryOf]⟩
  obtain ⟨y, hy⟩ := Option.isSome_iff_exists.mp hs
  have hk : cc.key y = cc.key x := by simpa [entryOf] using List.find?_some hy
  rw [hy, h.key_inj (List.mem_of_find?_eq_some hy) hx hk]; rfl

theorem Abstracts.find?_eq_none (hk : ∀ x ∈ l, cc.key x ≠ k) : es.find? (·.id = k) = none := by
  rw [h.entries, List.find?_map, List.find?_eq_none.mpr]; · rfl
  intro x hx; simpa [Function.comp, entryOf] using hk x hx

theorem Abstracts.entryOf_not_mem (hl : l = a ++ x :: b) : cc.entryOf x ∉ a.map cc.entryOf := by
  subst hl
  intro hm
  obtain ⟨y, hy, he⟩ := List.mem_map.mp hm
  have hxy := h.key_inj (by simp [hy]) (by simp) (congrArg LruEntry.id he)
  subst hxy
  exact (List.nodup_append.mp h.list.nodup).2.2 hy (.head _)

end Abstracts


theorem entryOf_fill (hy : IsEntry y) (hx : IsEntry x) : (cc.fill x k params).entryOf y =
    if y = x then ⟨k, params.version, params.cipherSuite, params.masterSecret⟩ else cc.entryOf y := by
  have hd := @fill_data cc x y k params hy hx
  simp only [entryOf, hd.1, hd.2.1, hd.2.2.1, hd.2.2.2]
  split <;> rfl

-- The tree `lru_save` leaves: the fresh entry `x` hung at the null link `find_node` ended on,
-- given null children, pushed on the list and filled with the key `k` searched for.
theorem SearchTree.insertLeaf {ctx : Ctx} (ht : c.SearchTree (ctx.fill .nil)) (hx : IsEntry x)
    (hxt : x ∉ (ctx.fill .nil).nodes) (hpre : ∀ y ∈ ctx.pre, c.key y < k)
    (hpost : ∀ y ∈ ctx.post, k < c.key y)
    (hlo : ListOnly (c.insertLeaf (ctx.link addrNull) x) c') :
    (c'.fill x k params).SearchTree (ctx.fill (.node .nil x .nil)) := by
  have hce : ∀ y ∈ ctx.nodes, IsEntry y := fun y hy => ht.entry y (Ctx.mem_fill.mpr (.inr hy))
  have hw := ctx.not_linkOf hce hx fun h => hxt (Ctx.mem_fill.mpr (.inr h))
  have hmem : ∀ y ∈ (ctx.fill .nil).nodes, IsEntry y ∧ y ≠ x := fun y hy =>
    ⟨ht.entry y hy, fun e => hxt (e ▸ hy)⟩
  have hkey : ∀ y, IsEntry y → (c.fill x k params).key y = if y = x then k else c.key y :=
    fun y hy => (fill_data hy hx).1
  -- the same writes, in the order `SearchTree.insert` takes them
  let e := ((c.fill x k params).setLeft x addrNull).setRight x addrNull
  have hek : ∀ y ∈ (ctx.fill .nil).nodes, e.key y = c.key y := fun y hy => by
    simp only [e, key_set, hkey y (hmem y hy).1, if_neg (hmem y hy).2]
  have hex : e.key x = k := by simp only [e, key_set, hkey x hx, if_pos]
  have hte : e.SearchTree (ctx.fill .nil) := by
    refine ht.frame rfl (fun y hy => ?_) hek
    obtain ⟨hy, hyx⟩ := hmem y hy
    simp only [e, getLeft_setRight hy hx, getRight_setRight hy hx, getLeft_setLeft hy hx,
      getRight_setLeft hy hx, if_neg hyx]
    exact ⟨rfl, rfl⟩
  have hins := hte.insert hx hxt
    (fun y hy => by rw [hex, hek y (by simp [Ctx.nodes_fill, hy])]; exact hpre y hy)
    (fun y hy => by rw [hex, hek y (by simp [Ctx.nodes_fill, hy])]; exact hpost y hy)
    (by simp only [e, getLeft_setRight hx hx, getLeft_setLeft hx hx, if_pos])
    (by simp only [e, getRight_setRight hx hx, if_pos])
  refine hins.frame ?_ (fun y hy => ?_) (fun y hy => ?_)
  · simp only [fill_root, hlo.root, SessionCacheLru.insertLeaf, set_root, setLink_root, e]
  · have hy' : IsEntry y := hins.entry y hy
    rw [fill_getLeft, fill_getRight, (hlo.tree y hy').1, (hlo.tree y hy').2]
    simp only [SessionCacheLru.insertLeaf, getLeft_setRight hy' hx, getLeft_setLeft hy' hx,
      getRight_setRight hy' hx, getRight_setLeft hy' hx, getLeft_setLink hy', getRight_setLink hy', e]
    by_cases hyx : y = x
    · subst hyx
      have h₁ : ctx.link addrNull ≠ y + treeLeftOff.toUInt32 := fun e => hw (.inl e)
      have h₂ : ctx.link addrNull ≠ y + treeRightOff.toUInt32 := fun e => hw (.inr e)
      simp only [h₁, h₂, if_true, if_false, and_self]
    · simp only [if_neg hyx, fill_getLeft, fill_getRight, and_self]
  · rw [(fill_data (hins.entry y hy) hx).1, key_setLink]
    by_cases hyx : y = x
    · rw [if_pos hyx, hyx, hex]
    · have hyt : y ∈ (ctx.fill .nil).nodes := by
        simpa [Ctx.nodes_fill, hyx] using hy
      rw [if_neg hyx, hek y hyt]
      simp only [key, hlo.sessionId, SessionCacheLru.insertLeaf, set_store_sessionId, setLink_store_sessionId]

theorem pushHead_initDone : (cc.pushHead x).initDone = cc.initDone := by
  unfold pushHead; split <;> simp

theorem insertLeaf_initDone : (cc.insertLeaf y x).initDone = cc.initDone := by
  simp [SessionCacheLru.insertLeaf]

theorem moveToHead_initDone : (cc.moveToHead x).initDone = cc.initDone := by
  unfold moveToHead; dsimp only []; split <;> simp

theorem Abstracts.lruLoad (h : Abstracts cc l t es) (hfuel : cc.storeLen / lruEntryLen < fuel) :
    ∃ cc' l' t', cc.lruLoad mask fuel params = some (cc', (LruMap.load mask es params).2) ∧
      Abstracts cc' l' t' (LruMap.load mask es params).1 ∧ cc'.storeLen = cc.storeLen := by
  have hf := h.length_lt hfuel
  cases hi : cc.initDone
  case false =>
    obtain rfl := h.not_init hi
    obtain rfl : es = [] := h.entries
    exact ⟨cc, [], t, by simp [SessionCacheLru.lruLoad, hi, LruMap.load], h, rfl⟩
  case true =>
    by_cases hk : ∃ x ∈ l, cc.key x = mask params.sessionId
    case neg =>
      push_neg at hk
      obtain ⟨c, -, hfind, -⟩ := findNode_miss h.tree hf fun y hy => hk y (h.perm.mem_iff.mp hy)
      rw [LruMap.load, h.find?_eq_none hk]
      exact ⟨cc, l, t, by simp [SessionCacheLru.lruLoad, hi, hfind], h, rfl⟩
    case pos =>
    obtain ⟨x, hx, hkx⟩ := hk
    obtain ⟨c, -, -, -, hfind, -, -⟩ := findNode_hit h.tree hf (h.perm.mem_iff.mpr hx)
    rw [hkx] at hfind
    have hxn := h.list.ne_addrNull hx
    have hmap : LruMap.load mask es params = (cc.entryOf x :: es.erase (cc.entryOf x), true,
        { params with
          version := cc.store.version (x.toNat + versionOff)
          cipherSuite := cc.store.cipherSuite (x.toNat + cipherSuiteOff)
          masterSecret := cc.store.masterSecret (x.toNat + masterSecretOff) }) := by
      simp only [LruMap.load, ← hkx, h.find?_of_mem hx]; rfl
    have hcode : cc.lruLoad mask fuel params = some (if x ≠ cc.head then cc.moveToHead x else cc, true,
        { params with
          version := cc.store.version (x.toNat + versionOff)
          cipherSuite := cc.store.cipherSuite (x.toNat + cipherSuiteOff)
          masterSecret := cc.store.masterSecret (x.toNat + masterSecretOff) }) := by
      simp [SessionCacheLru.lruLoad, hi, hfind, hxn]
    rw [hmap]
    by_cases hh : x = cc.head
    case pos =>
      obtain ⟨w, rest, rfl⟩ := List.exists_cons_of_ne_nil (List.ne_nil_of_mem hx)
      obtain rfl : x = w := hh.trans h.list.head
      refine ⟨cc, x :: rest, t, by rw [hcode, if_neg (not_not.mpr hh)], ?_, rfl⟩
      convert h using 1
      rw [h.entries, List.map_cons, List.erase_cons_head]
    case neg =>
      rw [if_pos hh] at hcode
      obtain ⟨a, b, rfl⟩ := List.append_of_mem hx
      have ha : a ≠ [] := by rintro rfl; exact hh (by simpa using h.list.head.symm)
      obtain ⟨hl', hlo⟩ := h.list.moveToHead ha
      have hsd : (cc.moveToHead x).entryOf = cc.entryOf := SameData.entryOf_eq sameData_moveToHead
      refine ⟨cc.moveToHead x, x :: (a ++ b), t, hcode, ⟨h.wf.moveToHead (.inr ((h.mem x).mp hx)) hxn hh,
        hl', fun y => ?_, h.tree.listOnly hlo, h.perm.trans List.perm_middle, ?_, ?_, ?_⟩, hlo.storeLen⟩
      · rw [hlo.storePtr, ← h.mem]; exact List.perm_middle.mem_iff.symm
      · rw [hsd, h.entries, List.map_cons, List.map_append, List.map_append, List.map_cons,
          List.erase_append_right _ (h.entryOf_not_mem rfl), List.erase_cons_head]
      · rw [hlo.storePtr, h.storePtr_eq, List.perm_middle.length_eq]
      · rw [moveToHead_initDone, hi]; exact Bool.noConfusion

theorem Abstracts.setInitDone (h : Abstracts cc l t es) :
    Abstracts { cc with initDone := true } l t es :=
  ⟨h.wf.congr rfl rfl rfl rfl rfl rfl, h.list.frame rfl rfl fun _ _ => ⟨rfl, rfl⟩, h.mem,
    h.tree.frame rfl (fun _ _ => ⟨rfl, rfl⟩) fun _ _ => rfl, h.perm, h.entries, h.storePtr_eq,
    fun e => Bool.noConfusion e⟩

-- The entries after a save of `k` into the fresh entry `x`: the saved fields first, the others
-- unchanged.
theorem map_entryOf_insert (hx : IsEntry x) (hxl : x ∉ l) (he : ∀ y ∈ l, IsEntry y) :
    (x :: l).map (((c.insertLeaf w x).pushHead x).fill x k params).entryOf =
      ⟨k, params.version, params.cipherSuite, params.masterSecret⟩ :: l.map c.entryOf := by
  have hsd : ((c.insertLeaf w x).pushHead x).entryOf = c.entryOf :=
    (sameData_insertLeaf.trans sameData_pushHead).entryOf_eq
  rw [List.map_cons, entryOf_fill hx hx, if_pos rfl]
  refine congrArg _ (List.map_congr_left fun y hy => ?_)
  rw [entryOf_fill (he y hy) hx, if_neg fun (e : y = x) => hxl (e ▸ hy), hsd]

-- `lru_save` of a masked ID the map lacks, into a block with room: the entry at the old pointer
-- is allocated, hung at the null link the search ends on, pushed first and filled.
theorem Abstracts.lruSave_new (h : Abstracts cc l t es) (hfuel : cc.storeLen / lruEntryLen < fuel)
    (hlen : lruEntryLen ≤ cc.storeLen) (hk : ∀ x ∈ l, cc.key x ≠ mask params.sessionId)
    (hlt : es.length < cc.storeLen / lruEntryLen) :
    ∃ cc' slot l' t', cc.lruSave mask fuel params = some (cc', slot) ∧
      Abstracts cc' l' t' (⟨mask params.sessionId, params.version, params.cipherSuite,
        params.masterSecret⟩ :: es) ∧ cc'.storeLen = cc.storeLen := by
  have hf := h.length_lt hfuel
  have hkt : ∀ y ∈ t.nodes, ({ cc with initDone := true } : SessionCacheLru).key y ≠
      mask params.sessionId := fun y hy => hk y (h.perm.mem_iff.mp hy)
  obtain ⟨_, _, hfind, -⟩ := findNode_miss h.setInitDone.tree hf hkt
  have hes : es.length = l.length := by rw [h.entries, List.length_map]
  have hp := h.storePtr_eq
  have hle := h.wf.storePtr_le
  have hsz := h.wf.storeLen_lt
  have hmod := h.wf.storePtr_mod
  have hroom : ¬cc.storePtr > cc.storeLen - lruEntryLen := by
    simp only [lruEntryLen] at *; omega
  -- the entry at the old pointer is allocated, and the search runs again on the same tree
  let c : SessionCacheLru := { cc with initDone := true, storePtr := cc.storePtr + lruEntryLen }
  have hc : c.SearchTree t := h.tree.frame rfl (fun _ _ => ⟨rfl, rfl⟩) fun _ _ => rfl
  obtain ⟨ctx, rfl, hfind', -, -, hpre, hpost⟩ := findNode_miss hc hf hkt
  have hsave : cc.lruSave mask fuel params = some ((((c.insertLeaf (ctx.link addrNull)
      cc.storePtr.toUInt32).pushHead cc.storePtr.toUInt32).fill cc.storePtr.toUInt32
      (mask params.sessionId) params), some cc.storePtr.toUInt32) := by
    simp [SessionCacheLru.lruSave, Nat.not_lt.mpr hlen, hfind, makeRoom, hroom, allocate, hfind']
  set x := cc.storePtr.toUInt32 with hxdef
  have hxn : x.toNat = cc.storePtr := UInt32.toNat_ofNat_of_lt (by omega)
  have hx : IsEntry x := ⟨by rw [hxn]; exact hmod, by rw [hxn]; simp only [lruEntryLen] at *; omega⟩
  have hxl : x ∉ l := fun hm => absurd ((h.mem x).mp hm).2 (by omega)
  have hce : ∀ y ∈ ctx.nodes, IsEntry y := fun y hy => hc.entry y (Ctx.mem_fill.mpr (.inr hy))
  have hto : TreeOnly c (c.insertLeaf (ctx.link addrNull) x) := insertLeaf_treeOnly hx
    ((ctx.link_cases addrNull).imp_right fun ⟨p, hp, hl⟩ => ⟨p, hce p hp, hl⟩)
  obtain ⟨hl', hlo⟩ :=
    ((h.list.frame rfl rfl fun _ _ => ⟨rfl, rfl⟩ : c.LruList l).treeOnly hto).pushHead hx hxl
  have hptr : (((c.insertLeaf (ctx.link addrNull) x).pushHead x).fill x (mask params.sessionId)
      params).storePtr = cc.storePtr + lruEntryLen := fill_storePtr.trans (hlo.storePtr.trans hto.storePtr)
  refine ⟨_, some x, x :: l, ctx.fill (.node .nil x .nil), hsave, ⟨h.wf.lruSave hsave, hl'.fill,
    fun y => ?_, hc.insertLeaf hx (fun hm => hxl (h.perm.mem_iff.mp hm)) hpre hpost hlo,
    (Ctx.perm_fill ctx _).trans (.cons x ((Ctx.perm_fill ctx .nil).symm.trans h.perm)), ?_, ?_,
    ?_⟩, fill_storeLen.trans (hlo.storeLen.trans hto.storeLen)⟩
  · rw [hptr, allocated_add_iff hmod (by omega), ← h.mem, List.mem_cons, or_comm]
  · rw [map_entryOf_insert hx hxl h.list.entry, h.entries]; rfl
  · rw [hptr, hp, List.length_cons]; simp only [lruEntryLen]; omega
  · rw [fill_initDone, pushHead_initDone, insertLeaf_initDone]; exact Bool.noConfusion

theorem Abstracts.lruSave (h : Abstracts cc l t es) (hfuel : cc.storeLen / lruEntryLen < fuel)
    (hroom : mask params.sessionId ∉ es.map (·.id) → es.length < cc.storeLen / lruEntryLen) :
    ∃ cc' slot l' t', cc.lruSave mask fuel params = some (cc', slot) ∧
      Abstracts cc' l' t' (LruMap.save (cc.storeLen / lruEntryLen) mask es params) ∧
      cc'.storeLen = cc.storeLen := by
  by_cases hlen : cc.storeLen < lruEntryLen
  case pos =>
    refine ⟨cc, none, l, t, by simp [SessionCacheLru.lruSave, hlen], ?_, rfl⟩
    rw [Nat.div_eq_of_lt hlen, LruMap.save, if_pos (.inl rfl)]; exact h
  by_cases hk : ∃ x ∈ l, cc.key x = mask params.sessionId
  case pos =>
    obtain ⟨x, hx, hkx⟩ := hk
    obtain ⟨_, _, _, _, hfind, -⟩ :=
      findNode_hit h.setInitDone.tree (h.length_lt hfuel) (h.perm.mem_iff.mpr hx)
    rw [show ({ cc with initDone := true } : SessionCacheLru).key x = cc.key x from rfl, hkx] at hfind
    refine ⟨{ cc with initDone := true }, none, l, t,
      by simp [SessionCacheLru.lruSave, hlen, hfind, h.list.ne_addrNull hx], ?_, rfl⟩
    simp only [LruMap.save]
    rw [if_pos (.inr (List.any_eq_true.mpr ⟨cc.entryOf x, h.entries ▸ List.mem_map_of_mem _ hx,
      by simp [entryOf, hkx]⟩))]
    exact h.setInitDone
  push_neg at hk
  have hnew : (es.any (·.id = mask params.sessionId)) = false := by
    simpa [h.entries, entryOf] using hk
  have hlt := hroom (by simpa [h.entries, entryOf] using hk)
  simp only [LruMap.save, hnew, Bool.false_eq_true, or_false]
  rw [if_neg (by omega), if_neg (by omega)]
  exact h.lruSave_new hfuel (Nat.not_lt.mp hlen) hk hlt

theorem Abstracts.ids_nodup (h : Abstracts cc l t es) : (es.map (·.id)).Nodup := by
  rw [h.entries, List.map_map]
  exact h.list.nodup.map_on fun x hx y hy e => h.key_inj hx hy e

end BearSSL.SessionCacheLru

namespace BearSSL

open SessionCacheLru

-- The masked IDs the saves among `calls` are made with.
def Call.saveKeys (mask : SessionId → SessionId) : List Call → List SessionId
  | [] => []
  | .save params :: calls => mask params.sessionId :: saveKeys mask calls
  | .load _ :: calls => saveKeys mask calls

variable {cc : SessionCacheLru} {l : List UInt32} {t : Tree} {es : List LruEntry} {fuel : Nat}
  {mask : SessionId → SessionId} {calls : List Call}

-- From a state holding the map `es`, a run in which the map's and the saves' masked IDs number
-- at most the block's capacity returns, and its loads are those of the abstract LRU map.
theorem SessionCacheLru.Abstracts.run (h : Abstracts cc l t es) (hfuel : cc.storeLen / lruEntryLen < fuel)
    (hcap : (es.map (·.id) ++ Call.saveKeys mask calls).toFinset.card ≤ cc.storeLen / lruEntryLen) :
    ∃ evs cc', run mask fuel cc calls = some (evs, cc') ∧
      Event.loads evs = LruMap.loads (cc.storeLen / lruEntryLen) mask es calls := by
  induction calls generalizing cc l t es with
  | nil => exact ⟨[], cc, rfl, rfl⟩
  | cons call calls ih =>
    cases call with
    | save params =>
      have hroom : mask params.sessionId ∉ es.map (·.id) → es.length < cc.storeLen / lruEntryLen :=
        fun hk => by
          have h₁ : (insert (mask params.sessionId) (es.map (·.id)).toFinset).card = es.length + 1 := by
            rw [Finset.card_insert_of_not_mem (by simpa using hk),
              List.toFinset_card_of_nodup h.ids_nodup, List.length_map]
          have h₂ := Finset.card_le_card (show insert (mask params.sessionId) (es.map (·.id)).toFinset ⊆
              (es.map (·.id) ++ Call.saveKeys mask (.save params :: calls)).toFinset from fun i hi => by
            simp only [Finset.mem_insert, List.mem_toFinset, List.mem_append, Call.saveKeys,
              List.mem_cons] at hi ⊢
            tauto)
          omega
      obtain ⟨cc', slot, l', t', hs, h', hlen⟩ := h.lruSave hfuel hroom
      have hcap' : ((LruMap.save (cc.storeLen / lruEntryLen) mask es params).map (·.id) ++
          Call.saveKeys mask calls).toFinset.card ≤ cc'.storeLen / lruEntryLen := by
        rw [hlen]
        refine le_trans (Finset.card_le_card fun i hi => ?_) hcap
        simp only [List.mem_toFinset, List.mem_append, Call.saveKeys, List.mem_cons] at hi ⊢
        rcases hi with hi | hi
        · exact (LruMap.mem_ids_save hi).imp_right .inl
        · exact .inr (.inr hi)
      obtain ⟨evs, cc'', hr, he⟩ := ih h' (hlen ▸ hfuel) hcap'
      refine ⟨.save params slot :: evs, cc'', by simp [BearSSL.run, hs, hr], ?_⟩
      rw [hlen] at he
      simpa [Event.loads, LruMap.loads] using he
    | load params =>
      obtain ⟨cc', l', t', hl, h', hlen⟩ := @Abstracts.lruLoad cc l t es fuel mask params h hfuel
      rcases hlm : LruMap.load mask es params with ⟨es', found, out⟩
      rw [hlm] at hl h'
      have hcap' : (es'.map (·.id) ++ Call.saveKeys mask calls).toFinset.card ≤
          cc'.storeLen / lruEntryLen := by
        rw [hlen]
        refine le_trans (Finset.card_le_card fun i hi => ?_) hcap
        simp only [List.mem_toFinset, List.mem_append, Call.saveKeys] at hi ⊢
        exact hi.imp_left fun hi => LruMap.mem_ids_load (by rw [hlm]; exact hi)
      obtain ⟨evs, cc'', hr, he⟩ := ih h' (hlen ▸ hfuel) hcap'
      refine ⟨.load params found out :: evs, cc'', by simp [BearSSL.run, hl, hr], ?_⟩
      rw [hlen] at he
      simp [Event.loads, LruMap.loads, hlm, he]

-- While at most `N = store_len / 100` masked IDs are saved, every run of saves and loads from
-- `br_ssl_session_cache_lru_init` returns, and each load answers as the abstract LRU map of
-- capacity `N`.
theorem run_refines_lruMap {s : Store} {len : Nat} (hl : len < UInt32.size)
    (hfuel : len / lruEntryLen < fuel)
    (hcap : (Call.saveKeys mask calls).toFinset.card ≤ len / lruEntryLen) :
    ∃ evs cc, run mask fuel (init s len) calls = some (evs, cc) ∧
      Event.loads evs = LruMap.loads (len / lruEntryLen) mask [] calls :=
  (Abstracts.init hl).run hfuel hcap

def twoSessionCalls : List Call :=
  [.save (.ofByte 0), .save (.ofByte 1), .load (.ofByte 0), .load (.ofByte 1), .load (.ofByte 2)]

theorem twoSessions_refine_lruMap : 200 < UInt32.size ∧ 200 / lruEntryLen < 3 ∧
    (Call.saveKeys id twoSessionCalls).toFinset.card ≤ 200 / lruEntryLen ∧
    ∃ evs cc, run id 3 (init Store.blank 200) twoSessionCalls = some (evs, cc) ∧
      Event.loads evs = LruMap.loads (200 / lruEntryLen) id [] twoSessionCalls :=
  ⟨by decide, by decide, by decide, run_refines_lruMap (by decide) (by decide) (by decide)⟩

end BearSSL
