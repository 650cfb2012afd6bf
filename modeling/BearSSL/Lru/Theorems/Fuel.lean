import BearSSL.Lru.Cache

namespace BearSSL

namespace SessionCacheLru

variable {cc cc' : SessionCacheLru} {fuel fuel' : Nat} {x : UInt32} {k : SessionId}
  {r r' : UInt32 × UInt32} {c c' : SessionCacheLru × UInt32} {mask : SessionId → SessionId}
  {params : Params}

-- The fuel bounds the tree walks only: a call that returns with some fuel returns the same with
-- more.

theorem findNode_mono (h : cc.findNode fuel k = some r) (hf : fuel ≤ fuel') :
    cc.findNode fuel' k = some r :=
  descend_mono h hf

theorem findReplacementNode_mono (h : cc.findReplacementNode fuel x = some r) (hf : fuel ≤ fuel') :
    cc.findReplacementNode fuel' x = some r := by
  unfold findReplacementNode at h ⊢
  split at h
  · rw [if_pos ‹_›]; exact descend_mono h hf
  · rw [if_neg ‹_›]
    split at h
    · rw [if_pos ‹_›]; exact descend_mono h hf
    · rwa [if_neg ‹_›]

theorem removeNode_mono (h : cc.removeNode fuel x = some cc') (hf : fuel ≤ fuel') :
    cc.removeNode fuel' x = some cc' := by
  unfold removeNode at h ⊢
  simp only [bind, Option.bind_eq_some', pure, Option.some.injEq] at h ⊢
  obtain ⟨a, ha, b, hb, rfl⟩ := h
  exact ⟨a, findNode_mono ha hf, b, findReplacementNode_mono hb hf, rfl⟩

theorem makeRoom_mono (h : cc.makeRoom fuel = some c) (hf : fuel ≤ fuel') :
    cc.makeRoom fuel' = some c := by
  unfold makeRoom evictTail at h ⊢
  split at h
  · rw [if_pos ‹_›]
    obtain ⟨c', hc, rfl⟩ := Option.map_eq_some'.mp h
    rw [removeNode_mono hc hf]; rfl
  · rwa [if_neg ‹_›]

theorem makeRoom_unique (h : cc.makeRoom fuel = some c) (h' : cc.makeRoom fuel' = some c') :
    c = c' :=
  Option.some.inj ((makeRoom_mono h (le_max_left _ _)).symm.trans (makeRoom_mono h' (le_max_right _ _)))

theorem findNode_unique (h : cc.findNode fuel k = some r) (h' : cc.findNode fuel' k = some r') :
    r = r' :=
  Option.some.inj ((findNode_mono h (le_max_left _ _)).symm.trans (findNode_mono h' (le_max_right _ _)))

theorem lruSave_mono {s : SessionCacheLru × Option UInt32}
    (h : cc.lruSave mask fuel params = some s) (hf : fuel ≤ fuel') :
    cc.lruSave mask fuel' params = some s := by
  obtain ⟨cc', slot⟩ := s
  rcases lruSave_eq_some h with ⟨hl, rfl, rfl⟩ |
    ⟨hl, f, al, hfind, ⟨hf0, rfl, rfl⟩ | ⟨rfl, c, x, g, alx, hr, hg, rfl, rfl⟩⟩
  · simp [lruSave, hl]
  · simp [lruSave, Nat.not_lt.mpr hl, findNode_mono hfind hf, hf0]
  · simp [lruSave, Nat.not_lt.mpr hl, findNode_mono hfind hf, makeRoom_mono hr hf,
      findNode_mono hg hf]

theorem lruLoad_mono {s : SessionCacheLru × Bool × Params}
    (h : cc.lruLoad mask fuel params = some s) (hf : fuel ≤ fuel') :
    cc.lruLoad mask fuel' params = some s := by
  obtain ⟨cc', found, out⟩ := s
  rcases lruLoad_eq_some h with ⟨hi, rfl, rfl, rfl⟩ |
    ⟨hi, x, al, hfind, ⟨rfl, rfl, rfl, rfl⟩ | ⟨hx, rfl, rfl, rfl⟩⟩
  · simp [lruLoad, hi]
  · simp [lruLoad, hi, findNode_mono hfind hf]
  · simp [lruLoad, hi, findNode_mono hfind hf, hx]

end SessionCacheLru

open SessionCacheLru

variable {mask : SessionId → SessionId} {fuel fuel' : Nat} {cc : SessionCacheLru}
  {calls : List Call} {r : List Event × SessionCacheLru}

-- A run that returns with some fuel returns the same events and state with more: the fuel
-- is a bound on the tree walks, not part of what the calls compute.
theorem run_mono (h : run mask fuel cc calls = some r) (hf : fuel ≤ fuel') :
    run mask fuel' cc calls = some r := by
  induction calls generalizing cc r with
  | nil => exact h
  | cons c calls ih =>
    cases c <;> simp only [run, bind, pure, Option.bind_eq_some'] at h ⊢
    case save params =>
      obtain ⟨a, ha, b, hb, hr⟩ := h
      exact ⟨a, lruSave_mono ha hf, b, ih hb, hr⟩
    case load params =>
      obtain ⟨a, ha, b, hb, hr⟩ := h
      exact ⟨a, lruLoad_mono ha hf, b, ih hb, hr⟩

end BearSSL
