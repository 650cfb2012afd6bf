import BearSSL.Lru.Theorems.Refinement

namespace BearSSL

namespace SessionCacheLru

-- The LRU list `l` of a state, read as the masked IDs `ids` of its entries: the list goes
-- through the allocated entries, one per entry's worth of the block taken, in a block of `n`
-- entries, and no two of its entries have the same key.
structure Recent (n : Nat) (cc : SessionCacheLru) (l : List UInt32) (ids : List SessionId) :
    Prop where
  wf : cc.Wf
  list : cc.LruList l
  mem : ∀ x, x ∈ l ↔ Allocated cc.storePtr x
  storePtr_eq : cc.storePtr = lruEntryLen * l.length
  cap : cc.storeLen / lruEntryLen = n
  keys : l.map cc.key = ids
  nodup : ids.Nodup

variable {n fuel : Nat} {cc cc' c : SessionCacheLru} {l : List UInt32} {ids : List SessionId}
  {mask : SessionId → SessionId} {params out : Params} {slot : Option UInt32} {found : Bool}
  {x al w : UInt32} {k : SessionId}

theorem Recent.init {s : Store} {len : Nat} (h : len < UInt32.size) :
    Recent (len / lruEntryLen) (init s len) [] [] :=
  have h₀ : Abstracts (SessionCacheLru.init s len) [] .nil [] := Abstracts.init h
  ⟨h₀.wf, h₀.list, h₀.mem, rfl, rfl, rfl, List.nodup_nil⟩

theorem Recent.setInitDone (h : Recent n cc l ids) : Recent n { cc with initDone := true } l ids :=
  ⟨h.wf.congr rfl rfl rfl rfl rfl rfl, h.list.frame rfl rfl fun _ _ => ⟨rfl, rfl⟩, h.mem,
    h.storePtr_eq, h.cap, h.keys, h.nodup⟩

-- The entry a search ends on, when not null, is on the list and has the key searched for.
theorem Recent.findNode (h : Recent n cc l ids) (hf : cc.findNode fuel k = some (x, al))
    (hx : x ≠ addrNull) : x ∈ l ∧ cc.key x = k :=
  ⟨(h.mem x).mpr ((h.wf.tree.findNode hf).1.resolve_left hx), findNode_key hf hx⟩

theorem Recent.mem_of_findNode (h : Recent n cc l ids) (hf : cc.findNode fuel k = some (x, al))
    (hx : x ≠ addrNull) : k ∈ ids := by
  obtain ⟨hxl, hk⟩ := h.findNode hf hx
  rw [← h.keys, ← hk]; exact List.mem_map_of_mem _ hxl

-- `lru_save`'s room, on the list: on a full block the tail leaves the list to be reused, and
-- the IDs lose their last one; on a block with room the entry at the pointer is taken.
theorem Recent.makeRoom (h : Recent n cc l ids) (hlen : lruEntryLen ≤ cc.storeLen)
    (hr : cc.makeRoom fuel = some (c, x)) :
    ∃ l₀, c.LruList l₀ ∧ x ∉ l₀ ∧ (∀ y, y ∈ l₀ ∨ y = x ↔ Allocated c.storePtr y) ∧
      c.storePtr = lruEntryLen * (l₀.length + 1) ∧ c.storeLen = cc.storeLen ∧
      l₀.map cc.key = if ids.length = n then ids.dropLast else ids := by
  have hL : ids.length = l.length := by rw [← h.keys, List.length_map]
  have hp := h.storePtr_eq
  have hle := h.wf.storePtr_le
  have hc := h.cap
  unfold SessionCacheLru.makeRoom at hr
  split at hr
  case isTrue hfull =>
    obtain ⟨l₀, t, rfl⟩ := exists_concat_of_full h.mem hfull
    obtain ⟨rfl, hu, -, hptr, hlen'⟩ := h.wf.evictTail h.list h.mem hr
    have hn : ids.length = n := by simp only [List.length_append, lruEntryLen] at *; omega
    refine ⟨l₀, hu, fun hm => List.disjoint_of_nodup_append h.list.nodup hm (List.mem_singleton_self x),
      fun y => ?_, by rw [hptr, hp, List.length_append, List.length_singleton], hlen', ?_⟩
    · rw [hptr, ← h.mem, List.mem_append, List.mem_singleton]
    · rw [if_pos hn, ← h.keys, List.map_append, List.map_singleton, List.dropLast_concat]
  case isFalse hroom =>
    cases hr
    have hlt := h.wf.storeLen_lt
    have hmod := h.wf.storePtr_mod
    have hx : (cc.storePtr.toUInt32).toNat = cc.storePtr := UInt32.toNat_ofNat_of_lt (by omega)
    have hn : ids.length ≠ n := by simp only [lruEntryLen] at *; omega
    refine ⟨l, h.list.frame rfl rfl fun _ _ => ⟨rfl, rfl⟩,
      fun hm => absurd ((h.mem _).mp hm).2 (by rw [hx]; omega), fun y => ?_,
      by show cc.storePtr + lruEntryLen = _; rw [hp, Nat.mul_succ], rfl, by rw [if_neg hn, h.keys]⟩
    show _ ↔ Allocated (cc.storePtr + lruEntryLen) y
    rw [h.mem]; exact (allocated_add_iff hmod (by omega)).symm

-- The keys after a save of `k` into the fresh entry `x`: `k` first, the others unchanged.
theorem map_key_insert (hx : IsEntry x) (hxl : x ∉ l) (he : ∀ y ∈ l, IsEntry y) :
    (x :: l).map (((c.insertLeaf w x).pushHead x).fill x k params).key = k :: l.map c.key := by
  have h : (x :: l).map (((c.insertLeaf w x).pushHead x).fill x k params).entryOf = _ :=
    map_entryOf_insert hx hxl he
  simpa [List.map_map, Function.comp_def, entryOf] using congrArg (List.map LruEntry.id) h

-- `lru_save` of a masked ID the list lacks.
theorem Recent.lruSave (h : Recent n cc l ids) (hnew : mask params.sessionId ∉ ids)
    (hs : cc.lruSave mask fuel params = some (cc', slot)) :
    ∃ l', Recent n cc' l' (Event.touch n mask ids (.save params slot)) := by
  rcases lruSave_eq_some hs with ⟨hlt, rfl, -⟩ |
    ⟨hle, f, al, hf, ⟨hf0, -, -⟩ | ⟨-, c, x, g, alx, hr, hg, rfl, -⟩⟩
  · have hn : n = 0 := h.cap ▸ Nat.div_eq_of_lt hlt
    exact ⟨l, by simpa only [Event.touch, if_pos hn] using h⟩
  · exact absurd (h.setInitDone.mem_of_findNode hf hf0) hnew
  · have h₀ := h.setInitDone
    obtain ⟨l₀, hl₀, hxl, hmem, hptr, hlen, hkeys⟩ := h₀.makeRoom hle hr
    replace hkeys : l₀.map cc.key = _ := hkeys
    have hroom := h₀.wf.makeRoom hle hr
    have hx : IsEntry x := hroom.alloc.isEntry hroom.storePtr_le hroom.storeLen_lt hroom.storePtr_mod
    have hto : TreeOnly c (c.insertLeaf alx x) :=
      insertLeaf_treeOnly hx ((hroom.tree.findNode hg).2.linkOf hroom.tree.entry)
    obtain ⟨hl', hlo⟩ := (hl₀.treeOnly hto).pushHead hx hxl
    have hkc : c.key = cc.key := funext fun y => congrFun (sameData_makeRoom hr).sessionId _
    have hn : n ≠ 0 := by rw [← h.cap]; exact (Nat.div_pos hle (by decide)).ne'
    have hsub : (l₀.map cc.key).Sublist ids := by
      rw [hkeys]; split
      exacts [List.dropLast_sublist _, List.Sublist.refl _]
    refine ⟨x :: l₀, hroom.insert hg, hl'.fill, fun y => ?_, ?_, ?_, ?_, ?_⟩
    · rw [fill_storePtr, hlo.storePtr, hto.storePtr, ← hmem, List.mem_cons, or_comm]
    · rw [fill_storePtr, hlo.storePtr, hto.storePtr, hptr, List.length_cons]
    · rw [fill_storeLen, hlo.storeLen, hto.storeLen, hlen]; exact h.cap
    · rw [map_key_insert hx hxl hl₀.entry, hkc, hkeys]; simp only [Event.touch, if_neg hn]
    · simp only [Event.touch, if_neg hn, ← hkeys]
      exact List.nodup_cons.mpr ⟨fun hm => hnew (hsub.subset hm), h.nodup.sublist hsub⟩

-- `lru_load`: a session it finds is on the list, and moves first.
theorem Recent.lruLoad (h : Recent n cc l ids) (hl : cc.lruLoad mask fuel params = some (cc', found, out)) :
    (found = true → mask params.sessionId ∈ ids) ∧
      ∃ l', Recent n cc' l' (Event.touch n mask ids (.load params found out)) := by
  rcases lruLoad_eq_some hl with ⟨-, rfl, rfl, -⟩ | ⟨-, x, al, hf, ⟨-, rfl, rfl, -⟩ | ⟨hx, rfl, rfl, -⟩⟩
  · exact ⟨Bool.noConfusion, l, h⟩
  · exact ⟨Bool.noConfusion, l, h⟩
  obtain ⟨hxl, hk⟩ := h.findNode hf hx
  refine ⟨fun _ => h.mem_of_findNode hf hx, ?_⟩
  obtain ⟨a, b, rfl⟩ := List.append_of_mem hxl
  have hids : ids = a.map cc.key ++ mask params.sessionId :: b.map cc.key := by
    rw [← h.keys, List.map_append, List.map_cons, hk]
  have hnd : (mask params.sessionId :: (a.map cc.key ++ b.map cc.key)).Nodup :=
    List.nodup_middle.mp (hids ▸ h.nodup)
  have ha : mask params.sessionId ∉ a.map cc.key := fun hm =>
    (List.nodup_cons.mp hnd).1 (List.mem_append_left _ hm)
  have htouch : Event.touch n mask ids (.load params true out) =
      (x :: (a ++ b)).map cc.key := by
    rw [Event.touch, if_pos rfl, hids, List.erase_append_right _ ha, List.erase_cons_head,
      List.map_cons, List.map_append, hk]
  rw [htouch]
  split
  case isTrue hh =>
    obtain ⟨hl', hlo⟩ := h.list.moveToHead (mt h.list.nil_iff_head.mp hh)
    have hkm : (cc.moveToHead x).key = cc.key := funext fun y => congrFun sameData_moveToHead.sessionId _
    refine ⟨x :: (a ++ b), h.wf.moveToHead (.inr ((h.mem x).mp hxl)) hx hh, hl', fun y => ?_, ?_,
      hlo.storeLen ▸ h.cap, by rw [hkm], ?_⟩
    · rw [hlo.storePtr, ← h.mem, List.perm_middle.mem_iff]
    · rw [hlo.storePtr, h.storePtr_eq, List.perm_middle.length_eq]
    · rw [List.map_cons, List.map_append, hk]; exact hnd
  case isFalse hh =>
    -- the entry found is the head, so the list is unchanged
    obtain rfl := h.list.nil_iff_head.mpr (not_not.mp hh)
    subst hids
    exact ⟨x :: b, by simpa [hk] using h⟩

end SessionCacheLru

open SessionCacheLru

variable {mask : SessionId → SessionId} {evs : List Event} {cc cc' : SessionCacheLru} {fuel : Nat}
  {params out : Params} {found : Bool} {x : UInt32}

-- Over a history whose saves are of distinct masked IDs, the LRU list holds the IDs of
-- `Event.recency`, all saved in the history.
theorem Exec.recent (h : Exec mask evs cc) (hd : (Event.saved mask evs).Nodup) :
    ∃ l, Recent (cc.storeLen / lruEntryLen) cc l (Event.recency (cc.storeLen / lruEntryLen) mask evs) ∧
      ∀ k ∈ Event.recency (cc.storeLen / lruEntryLen) mask evs, k ∈ Event.saved mask evs := by
  induction h with
  | init s len hlen => exact ⟨[], Recent.init hlen, by simp⟩
  | @save evs cc fuel params cc' slot _ hs ih =>
    rw [Event.saved_append_save, List.nodup_append] at hd
    obtain ⟨l, hr, hsub⟩ := ih hd.1
    have hnew : mask params.sessionId ∉ Event.recency (cc.storeLen / lruEntryLen) mask evs :=
      fun hm => hd.2.2 (hsub _ hm) (List.mem_singleton_self _)
    obtain ⟨l', hr'⟩ := hr.lruSave hnew hs
    rw [hr'.cap, Event.recency_append]
    refine ⟨l', hr', fun k hk => ?_⟩
    rw [Event.saved_append_save, List.mem_append, List.mem_singleton]
    exact (Event.mem_touch_save hk).imp (hsub k) id
  | @load evs cc fuel params cc' found out _ hl ih =>
    rw [Event.saved_append_load] at hd ⊢
    obtain ⟨l, hr, hsub⟩ := ih hd
    obtain ⟨hfound, l', hr'⟩ := hr.lruLoad hl
    rw [hr'.cap, Event.recency_append]
    refine ⟨l', hr', fun k hk => hsub k ?_⟩
    rcases Event.mem_touch_load hk with hk | ⟨hf, rfl⟩
    exacts [hk, hfound hf]

-- Over a history whose saves are of distinct masked IDs, in any order with loads, the LRU
-- list holds the masked IDs `Event.recency` replays, in its order, and a load finds only one
-- of them.
theorem Exec.lru_recency (h : Exec mask evs cc) (hd : (Event.saved mask evs).Nodup) :
    (∃ l, cc.LruList l ∧ l.map cc.key = Event.recency (cc.storeLen / lruEntryLen) mask evs) ∧
    ∀ fuel params cc' out, cc.lruLoad mask fuel params = some (cc', true, out) →
      mask params.sessionId ∈ Event.recency (cc.storeLen / lruEntryLen) mask evs :=
  have ⟨l, hr, _⟩ := h.recent hd
  ⟨⟨l, hr.list, hr.keys⟩, fun _ _ _ _ hl => (hr.lruLoad hl).1 rfl⟩

theorem twoSaved_lru_recency : Exec id twoSavedRun.1 twoSaved ∧
    (Event.saved id twoSavedRun.1).Nodup ∧
    ((∃ l, twoSaved.LruList l ∧
      l.map twoSaved.key = Event.recency (twoSaved.storeLen / lruEntryLen) id twoSavedRun.1) ∧
    ∀ fuel params cc' out, twoSaved.lruLoad id fuel params = some (cc', true, out) →
      id params.sessionId ∈ Event.recency (twoSaved.storeLen / lruEntryLen) id twoSavedRun.1) :=
  ⟨twoSaved_exec, by decide, Exec.lru_recency twoSaved_exec (by decide)⟩

-- On a full block `lru_save` reuses the least recently used entry: the slot it fills is the last
-- entry of the LRU list, and it becomes the first, before the others in their old order.
theorem Exec.lruSave_evicts_lru (h : Exec mask evs cc)
    (hs : cc.lruSave mask fuel params = some (cc', some x))
    (hfull : cc.storePtr > cc.storeLen - lruEntryLen) :
    ∃ l, cc.LruList (l ++ [x]) ∧ cc'.LruList (x :: l) := by
  rcases lruSave_eq_some hs with ⟨-, -, hsl⟩ | ⟨hlen, f, al, -, ⟨-, -, hsl⟩ |
    ⟨-, c, y, g, alx, hr, hg, rfl, hsl⟩⟩
  · cases hsl
  · cases hsl
  obtain rfl := Option.some.inj hsl
  have hw : ({ cc with initDone := true } : SessionCacheLru).Wf := h.wf.congr rfl rfl rfl rfl rfl rfl
  obtain ⟨l0, hl0, hmem⟩ := hw.list
  obtain ⟨l, t, rfl⟩ := exists_concat_of_full hmem hfull
  unfold makeRoom at hr
  rw [if_pos hfull] at hr
  obtain ⟨rfl, hu, htr, -, -⟩ := hw.evictTail hl0 hmem hr
  have hx : IsEntry x := hl0.entry x (by simp)
  have hxl : x ∉ l := fun hm => List.disjoint_of_nodup_append hl0.nodup hm (List.mem_singleton_self x)
  have hto : TreeOnly c (c.insertLeaf alx x) :=
    insertLeaf_treeOnly hx ((htr.findNode hg).2.linkOf htr.entry)
  exact ⟨l, hl0.frame rfl rfl fun _ _ => ⟨rfl, rfl⟩, ((hu.treeOnly hto).pushHead hx hxl).1.fill⟩

-- Sessions 0 and 1 saved in a block of two entries, then 0 loaded: the block is full and the
-- entry of session 1, at 100, is the least recently used. Then session 2 is saved.
def fullRun : List Event × SessionCacheLru :=
  (run id 4 (init Store.blank 200) [.save (.ofByte 0), .save (.ofByte 1), .load (.ofByte 0)]).get
    (by decide)

def evictSave : SessionCacheLru × Option UInt32 :=
  (fullRun.2.lruSave id 4 (.ofByte 2)).get (by decide)

theorem fullRun_lruSave : fullRun.2.lruSave id 4 (.ofByte 2) = some (evictSave.1, some 100) := by
  rw [← show evictSave.2 = some 100 by decide]
  exact Option.eq_some_of_isSome (show (fullRun.2.lruSave id 4 (.ofByte 2)).isSome by decide)

theorem fullRun_evicts_lru : Exec id fullRun.1 fullRun.2 ∧
    fullRun.2.lruSave id 4 (.ofByte 2) = some (evictSave.1, some 100) ∧
    fullRun.2.storePtr > fullRun.2.storeLen - lruEntryLen ∧
    ∃ l, fullRun.2.LruList (l ++ [100]) ∧ evictSave.1.LruList (100 :: l) :=
  ⟨exec_of_run (by decide) _, fullRun_lruSave, by decide,
    Exec.lruSave_evicts_lru (exec_of_run (by decide) _) fullRun_lruSave (by decide)⟩

-- On a reachable state `lru_load` changes no lookup: a later load of any session, with any
-- fuel, returns what it returns without the first.
theorem Exec.lruLoad_keeps_lookups (h : Exec mask evs cc)
    (hl : cc.lruLoad mask fuel params = some (cc', found, out)) :
    ∀ fuel' q, (cc'.lruLoad mask fuel' q).map (·.2) = (cc.lruLoad mask fuel' q).map (·.2) := by
  intro fuel' q
  rcases lruLoad_eq_some hl with ⟨-, rfl, -⟩ | ⟨-, x, al, hf, ⟨-, rfl, -⟩ | ⟨hx, rfl, -⟩⟩
  · rfl
  · rfl
  split
  case isFalse => rfl
  case isTrue hh =>
    -- the entry found is allocated, so on the list, and not its head
    have hw := h.wf
    obtain ⟨l, hl', hmem⟩ := hw.list
    obtain ⟨a, b, rfl⟩ := List.append_of_mem ((hmem x).mpr ((hw.tree.findNode hf).1.resolve_left hx))
    exact lruLoad_congr moveToHead_initDone
      (fun _ _ => hw.tree.findNode_listOnly (hl'.moveToHead (mt hl'.nil_iff_head.mp hh)).2)
      sameData_moveToHead

-- From a reachable state, a run of loads with no save between returns for each load what that
-- load returns as the first call: no load changes what another finds or copies out.
theorem run_loads_eq_mapM (h : Exec mask evs cc) (qs : List Params) :
    (run mask fuel cc (qs.map .load)).map (Event.loads ·.1) =
      qs.mapM fun q => (cc.lruLoad mask fuel q).map (·.2) := by
  induction qs generalizing evs cc with
  | nil => rfl
  | cons q qs ih =>
    rw [List.mapM_cons, List.map_cons]
    rcases hq : cc.lruLoad mask fuel q with _ | ⟨cc', found, out⟩
    · simp only [run, hq]; rfl
    -- the rest of the run starts from the state the first load leaves, where every load
    -- returns what it returns on `cc`
    have ih' := ih (h.load hq)
    rw [funext (h.lruLoad_keeps_lookups hq fuel)] at ih'
    rw [← ih']
    rcases hr : run mask fuel cc' (qs.map .load) with _ | ⟨evs', cc''⟩ <;>
      simp [run, hq, hr, Event.loads]

theorem twoSaved_run_loads_eq_mapM : Exec id twoSavedRun.1 twoSaved ∧
    (run id 4 twoSaved ([Params.ofByte 1, .ofByte 0, .ofByte 1].map .load)).map (Event.loads ·.1) =
      [Params.ofByte 1, .ofByte 0, .ofByte 1].mapM fun q => (twoSaved.lruLoad id 4 q).map (·.2) :=
  ⟨twoSaved_exec, run_loads_eq_mapM twoSaved_exec _⟩

-- After saves of distinct masked IDs into a block of `n` entries, a load of a masked ID saved
-- before the last `n` saves does not find its session.
theorem Exec.evicted_load_misses
    (h : Exec mask (evs ++ [.load params found out]) cc) (hs : ∀ e ∈ evs, e.isSave)
    (hd : (Event.saved mask evs).Nodup)
    (hq : mask params.sessionId ∈
      (Event.saved mask evs).take ((Event.saved mask evs).length - cc.storeLen / lruEntryLen)) :
    found = false := by
  obtain ⟨c, fuel, hc, hl⟩ := h.of_snoc_load
  obtain ⟨l, hr, -⟩ := hc.recent hd
  obtain ⟨hfound, _, hr'⟩ := hr.lruLoad hl
  rw [Event.recency_of_saves hs, List.take_reverse, List.mem_reverse] at hfound
  rw [hr'.cap] at hq
  cases found
  · rfl
  · exact (List.disjoint_take_drop hd le_rfl hq (hfound rfl)).elim

-- In a block of two entries: save sessions 0, 1 and 2, then load 0.
def threeSavedRun : List Event × SessionCacheLru :=
  (run id 4 (init Store.blank 200) [.save (.ofByte 0), .save (.ofByte 1), .save (.ofByte 2)]).get
    (by decide)

def loadEvicted : SessionCacheLru × Bool × Params :=
  (threeSavedRun.2.lruLoad id 4 (.ofByte 0)).get (by decide)

theorem threeSaved_evicted_load_misses :
    Exec id (threeSavedRun.1 ++ [.load (.ofByte 0) loadEvicted.2.1 loadEvicted.2.2]) loadEvicted.1 ∧
    (∀ e ∈ threeSavedRun.1, e.isSave) ∧ (Event.saved id threeSavedRun.1).Nodup ∧
    id (Params.ofByte 0).sessionId ∈ (Event.saved id threeSavedRun.1).take
      ((Event.saved id threeSavedRun.1).length - loadEvicted.1.storeLen / lruEntryLen) ∧
    loadEvicted.2.1 = false :=
  have h : Exec id (threeSavedRun.1 ++ [.load (.ofByte 0) loadEvicted.2.1 loadEvicted.2.2])
      loadEvicted.1 :=
    (exec_of_run (by decide) _ : Exec id threeSavedRun.1 threeSavedRun.2).load
      (Option.eq_some_of_isSome (show (threeSavedRun.2.lruLoad id 4 (.ofByte 0)).isSome by decide))
  ⟨h, by decide, by decide, by decide, Exec.evicted_load_misses h (by decide) (by decide) (by decide)⟩

end BearSSL
