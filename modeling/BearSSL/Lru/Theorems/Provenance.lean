import BearSSL.Lru.Theorems.Invariant
import BearSSL.Lru.Theorems.FindNode

namespace BearSSL

namespace SessionCacheLru

-- The operations other than `fill` write no entry data.
structure SameData (cc cc' : SessionCacheLru) : Prop where
  sessionId    : cc'.store.sessionId = cc.store.sessionId
  masterSecret : cc'.store.masterSecret = cc.store.masterSecret
  version      : cc'.store.version = cc.store.version
  cipherSuite  : cc'.store.cipherSuite = cc.store.cipherSuite

variable {cc cc' cc'' c : SessionCacheLru} {fuel : Nat} {x y w v al : UInt32} {k : SessionId}
  {params : Params}

theorem SameData.trans (h : SameData cc cc') (h' : SameData cc' cc'') : SameData cc cc'' :=
  ⟨h'.sessionId.trans h.sessionId, h'.masterSecret.trans h.masterSecret, h'.version.trans h.version,
    h'.cipherSuite.trans h.cipherSuite⟩

theorem sameData_setLink : SameData cc (cc.setLink w v) :=
  ⟨by simp, by simp, by simp, by simp⟩

theorem sameData_removeNode (h : cc.removeNode fuel x = some cc') : SameData cc cc' := by
  unfold removeNode at h
  simp only [bind, Option.bind_eq_some', pure, Option.some.injEq] at h
  obtain ⟨-, -, -, -, rfl⟩ := h
  exact sameData_setLink.trans sameData_setLink

theorem sameData_makeRoom (h : cc.makeRoom fuel = some (c, x)) : SameData cc c := by
  unfold makeRoom at h
  split at h
  · obtain ⟨c', hc, e⟩ := Option.map_eq_some'.mp h
    cases e
    refine SameData.trans ?_ (sameData_removeNode hc)
    unfold unlinkTail; simp only [setTail_tail]; split <;> exact ⟨rfl, rfl, rfl, rfl⟩
  · cases h; exact ⟨rfl, rfl, rfl, rfl⟩

theorem sameData_insertLeaf : SameData cc (cc.insertLeaf w x) := by
  constructor <;> simp [insertLeaf]

theorem sameData_pushHead : SameData cc (cc.pushHead x) := by
  unfold pushHead; split <;> constructor <;> simp

theorem sameData_moveToHead : SameData cc (cc.moveToHead x) := by
  unfold moveToHead; dsimp only []; split <;> constructor <;> simp

theorem moveToHead_storePtr : (cc.moveToHead x).storePtr = cc.storePtr := by
  unfold moveToHead; dsimp only []; split <;> simp

theorem pushHead_storePtr : (cc.pushHead x).storePtr = cc.storePtr := by
  unfold pushHead; split <;> simp

theorem insertLeaf_storePtr : (cc.insertLeaf w x).storePtr = cc.storePtr := by
  simp [insertLeaf]

section Fill

variable (hy : IsEntry y) (hx : IsEntry x)
include hy hx

-- `fill` writes the data of `x` only.
theorem fill_data : (cc.fill x k params).key y = (if y = x then k else cc.key y) ∧
    (cc.fill x k params).store.version (y.toNat + versionOff) =
      (if y = x then params.version else cc.store.version (y.toNat + versionOff)) ∧
    (cc.fill x k params).store.cipherSuite (y.toNat + cipherSuiteOff) =
      (if y = x then params.cipherSuite else cc.store.cipherSuite (y.toNat + cipherSuiteOff)) ∧
    (cc.fill x k params).store.masterSecret (y.toNat + masterSecretOff) =
      (if y = x then params.masterSecret else cc.store.masterSecret (y.toNat + masterSecretOff)) := by
  have h₀ := hy.field_eq_iff hx (by decide : sessionIdOff < lruEntryLen)
    (by decide : sessionIdOff < lruEntryLen)
  have h₁ := hy.field_eq_iff hx (by decide : versionOff < lruEntryLen)
    (by decide : versionOff < lruEntryLen)
  have h₂ := hy.field_eq_iff hx (by decide : cipherSuiteOff < lruEntryLen)
    (by decide : cipherSuiteOff < lruEntryLen)
  have h₃ := hy.field_eq_iff hx (by decide : masterSecretOff < lruEntryLen)
    (by decide : masterSecretOff < lruEntryLen)
  simp only [fill, key, Function.update_apply, h₀, h₁, h₂, h₃, and_true]

end Fill

-- The entry `find_node` returns, when not null, has the masked ID it looks for.
theorem findNode_key (h : cc.findNode fuel k = some (x, al)) (hx : x ≠ addrNull) : cc.key x = k := by
  have hd := descend_stop h
  rw [findNode.dir_eq, if_neg hx] at hd
  split at hd
  · cases hd
  · exact (compare_eq_iff_eq.mp ‹_›).symm
  · cases hd

-- What `lru_load` returns reads the flag, the search and the data of the entry found: two
-- states that agree on these return alike.
theorem lruLoad_congr {mask : SessionId → SessionId} (hi : cc'.initDone = cc.initDone)
    (hf : ∀ fuel k, cc'.findNode fuel k = cc.findNode fuel k) (hd : SameData cc cc') :
    (cc'.lruLoad mask fuel params).map (·.2) = (cc.lruLoad mask fuel params).map (·.2) := by
  unfold lruLoad
  rw [hi, hf]
  cases cc.initDone
  · rfl
  · rcases cc.findNode fuel (mask params.sessionId) with _ | ⟨x, al⟩
    · rfl
    · simp only [bind, pure, Option.some_bind, Bool.not_true, Bool.false_eq_true, if_false]
      by_cases hx : x = addrNull <;> simp [hx, hd.masterSecret, hd.version, hd.cipherSuite]

end SessionCacheLru

open SessionCacheLru

-- The entry `x` holds the masked ID and the fields of the save of `evs` that filled it last:
-- one that was not dropped and whose slot no later save reused.
def FilledBy (mask : SessionId → SessionId) (evs : List Event) (cc : SessionCacheLru)
    (x : UInt32) : Prop :=
  ∃ (i : Nat) (q : Params), evs[i]? = some (.save q (some x)) ∧
    cc.key x = mask q.sessionId ∧ cc.store.version (x.toNat + versionOff) = q.version ∧
    cc.store.cipherSuite (x.toNat + cipherSuiteOff) = q.cipherSuite ∧
    cc.store.masterSecret (x.toNat + masterSecretOff) = q.masterSecret ∧
    ∀ (j : Nat) (q' : Params), i < j → evs[j]? ≠ some (.save q' (some x))

-- Every allocated entry was filled by a save of the history.
def Prov (mask : SessionId → SessionId) (evs : List Event) (cc : SessionCacheLru) : Prop :=
  ∀ x, Allocated cc.storePtr x → FilledBy mask evs cc x

variable {mask : SessionId → SessionId} {evs : List Event} {cc cc' c : SessionCacheLru} {fuel : Nat}
  {params out : Params} {slot : Option UInt32} {found : Bool} {e : Event} {x y : UInt32}

-- An event that does not fill `x`, on a state that keeps the data of `x`.
theorem FilledBy.snoc (h : FilledBy mask evs cc x) (hk : cc'.key x = cc.key x)
    (hv : cc'.store.version (x.toNat + versionOff) = cc.store.version (x.toNat + versionOff))
    (hc : cc'.store.cipherSuite (x.toNat + cipherSuiteOff) =
      cc.store.cipherSuite (x.toNat + cipherSuiteOff))
    (hm : cc'.store.masterSecret (x.toNat + masterSecretOff) =
      cc.store.masterSecret (x.toNat + masterSecretOff))
    (he : ∀ q, e ≠ .save q (some x)) : FilledBy mask (evs ++ [e]) cc' x := by
  obtain ⟨i, q, hi, hk', hv', hc', hm', hl⟩ := h
  have hlt : i < evs.length := (List.getElem?_eq_some_iff.mp hi).1
  refine ⟨i, q, by rwa [List.getElem?_append_left hlt], hk.trans hk', hv.trans hv', hc.trans hc',
    hm.trans hm', fun j q' hj => ?_⟩
  rcases lt_trichotomy j evs.length with hj' | rfl | hj'
  · rw [List.getElem?_append_left hj']; exact hl j q' hj
  · simpa using he q'
  · rw [List.getElem?_eq_none (by simp; omega)]; simp

-- The save just recorded fills `x`.
theorem filledBy_last (hk : cc.key x = mask params.sessionId)
    (hv : cc.store.version (x.toNat + versionOff) = params.version)
    (hc : cc.store.cipherSuite (x.toNat + cipherSuiteOff) = params.cipherSuite)
    (hm : cc.store.masterSecret (x.toNat + masterSecretOff) = params.masterSecret) :
    FilledBy mask (evs ++ [.save params (some x)]) cc x :=
  ⟨evs.length, params, by simp, hk, hv, hc, hm, fun j q' hj => by
    rw [List.getElem?_eq_none (by simp; omega)]; simp⟩

-- An event that fills no entry, on a state that keeps the data and the allocation.
theorem Prov.snoc (hp : Prov mask evs cc) (hd : SameData cc cc') (hptr : cc'.storePtr = cc.storePtr)
    (he : ∀ q x, e ≠ .save q (some x)) : Prov mask (evs ++ [e]) cc' := fun x hx =>
  (hp x (hptr ▸ hx)).snoc (congrFun hd.sessionId _) (congrFun hd.version _)
    (congrFun hd.cipherSuite _) (congrFun hd.masterSecret _) (he · x)

theorem Prov.lruSave (hp : Prov mask evs cc) (hw : cc.Wf)
    (hs : cc.lruSave mask fuel params = some (cc', slot)) :
    Prov mask (evs ++ [.save params slot]) cc' := by
  rcases lruSave_eq_some hs with ⟨-, rfl, rfl⟩ | ⟨hl, f, al, -, ⟨-, rfl, rfl⟩ | ⟨-, c, x, g, alx, hr, -, rfl, rfl⟩⟩
  · exact hp.snoc ⟨rfl, rfl, rfl, rfl⟩ rfl fun _ _ h => by cases h
  · exact hp.snoc ⟨rfl, rfl, rfl, rfl⟩ rfl fun _ _ h => by cases h
  · have hroom := (hw.congr rfl rfl rfl rfl rfl rfl :
      ({ cc with initDone := true } : SessionCacheLru).Wf).makeRoom hl hr
    have he : ∀ y, Allocated c.storePtr y → IsEntry y := fun y hy =>
      hy.isEntry hroom.storePtr_le hroom.storeLen_lt hroom.storePtr_mod
    have hd : SameData cc ((c.insertLeaf alx x).pushHead x) :=
      ((⟨rfl, rfl, rfl, rfl⟩ : SameData cc { cc with initDone := true }).trans
        (sameData_makeRoom hr)).trans (sameData_insertLeaf.trans sameData_pushHead)
    intro y hy'
    rw [fill_storePtr, pushHead_storePtr, insertLeaf_storePtr] at hy'
    obtain ⟨hk, hv, hc, hm⟩ := @fill_data ((c.insertLeaf alx x).pushHead x) x y
      (mask params.sessionId) params (he y hy') (he x hroom.alloc)
    by_cases hyx : y = x
    · subst hyx
      simp only [if_true] at hk hv hc hm
      exact filledBy_last hk hv hc hm
    · simp only [hyx, if_false] at hk hv hc hm
      refine (hp y ((hroom.fresh y hy').resolve_left hyx)).snoc (hk.trans (congrFun hd.sessionId _))
        (hv.trans (congrFun hd.version _)) (hc.trans (congrFun hd.cipherSuite _))
        (hm.trans (congrFun hd.masterSecret _)) fun q h => hyx ?_
      cases h; rfl

theorem Prov.lruLoad (hp : Prov mask evs cc) (hl : cc.lruLoad mask fuel params = some (cc', found, out)) :
    Prov mask (evs ++ [.load params found out]) cc' := by
  have he : ∀ q x, Event.load params found out ≠ .save q (some x) := fun _ _ h => by cases h
  rcases lruLoad_eq_some hl with ⟨-, rfl, -⟩ | ⟨-, x, al, -, ⟨-, rfl, -⟩ | ⟨-, rfl, -⟩⟩
  · exact hp.snoc ⟨rfl, rfl, rfl, rfl⟩ rfl he
  · exact hp.snoc ⟨rfl, rfl, rfl, rfl⟩ rfl he
  · split
    · exact hp.snoc sameData_moveToHead moveToHead_storePtr he
    · exact hp.snoc ⟨rfl, rfl, rfl, rfl⟩ rfl he

theorem Exec.prov (h : Exec mask evs cc) : Prov mask evs cc := by
  induction h with
  | init => exact fun x hx => absurd hx.2 (Nat.not_lt_zero _)
  | save he hs ih => exact ih.lruSave he.wf hs
  | load _ hl ih => exact ih.lruLoad hl

-- A load that hits copies out the fields of the save that filled the entry last.
theorem Exec.lruLoad_from_save (h : Exec mask evs cc)
    (hl : cc.lruLoad mask fuel params = some (cc', true, out)) :
    ∃ (i : Nat) (q : Params) (x : UInt32), evs[i]? = some (.save q (some x)) ∧
      mask q.sessionId = mask params.sessionId ∧
      out = { params with
        version := q.version
        cipherSuite := q.cipherSuite
        masterSecret := q.masterSecret } ∧
      ∀ (j : Nat) (q' : Params), i < j → evs[j]? ≠ some (.save q' (some x)) := by
  rcases lruLoad_eq_some hl with ⟨-, -, h, -⟩ | ⟨-, x, al, hf, ⟨-, -, h, -⟩ | ⟨hx, -, -, rfl⟩⟩
  · cases h
  · cases h
  · obtain ⟨i, q, hi, hk, hv, hc, hm, hlater⟩ := h.prov x ((h.wf.tree.findNode hf).1.resolve_left hx)
    refine ⟨i, q, x, hi, hk.symm.trans (findNode_key hf hx), ?_, hlater⟩
    rw [hv, hc, hm]

-- A load of session 0 from `twoSaved`: a hit.
def loadedZero : SessionCacheLru × Bool × Params :=
  (twoSaved.lruLoad id 4 (.ofByte 0)).get (by decide)

theorem twoSaved_lruLoad_zero :
    twoSaved.lruLoad id 4 (.ofByte 0) = some (loadedZero.1, true, loadedZero.2.2) := by
  rw [← show loadedZero.2.1 = true by decide]
  exact Option.eq_some_of_isSome (show (twoSaved.lruLoad id 4 (.ofByte 0)).isSome by decide)

theorem twoSaved_load_from_save : Exec id twoSavedRun.1 twoSaved ∧
    twoSaved.lruLoad id 4 (.ofByte 0) = some (loadedZero.1, true, loadedZero.2.2) ∧
    ∃ (i : Nat) (q : Params) (x : UInt32), twoSavedRun.1[i]? = some (.save q (some x)) ∧
      id q.sessionId = id (Params.ofByte 0).sessionId ∧
      loadedZero.2.2 = { Params.ofByte 0 with
        version := q.version
        cipherSuite := q.cipherSuite
        masterSecret := q.masterSecret } ∧
      ∀ (j : Nat) (q' : Params), i < j → twoSavedRun.1[j]? ≠ some (.save q' (some x)) :=
  ⟨twoSaved_exec, twoSaved_lruLoad_zero, Exec.lruLoad_from_save twoSaved_exec twoSaved_lruLoad_zero⟩

end BearSSL
