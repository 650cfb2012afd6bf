import BearSSL.Lru.Cache

namespace BearSSL

-- The LRU map the cache is meant to implement, in the words of its specification: a list of
-- entries, the most recently used first, of at most `n` entries keyed by masked ID.
structure LruEntry where
  id : SessionId
  version : UInt16
  cipherSuite : UInt16
  masterSecret : MasterSecret
  deriving DecidableEq

namespace LruMap

variable (n : Nat) (mask : SessionId → SessionId)

-- A save does nothing when `n = 0` or the masked ID is present, else it puts the entry first
-- and drops the last one of a full list.
def save (es : List LruEntry) (params : Params) : List LruEntry :=
  let id := mask params.sessionId
  if n = 0 ∨ es.any (·.id = id) then es
  else ⟨id, params.version, params.cipherSuite, params.masterSecret⟩ ::
    (if es.length = n then es.dropLast else es)

-- A load of a present masked ID returns its fields and moves it first; of an absent one it
-- returns `params` unchanged.
def load (es : List LruEntry) (params : Params) : List LruEntry × Bool × Params :=
  match es.find? (·.id = mask params.sessionId) with
  | some e => (e :: es.erase e, true, { params with
      version := e.version
      cipherSuite := e.cipherSuite
      masterSecret := e.masterSecret })
  | none => (es, false, params)

-- The results of the loads among `calls`, from the map `es`.
def loads : List LruEntry → List Call → List (Bool × Params)
  | _, [] => []
  | es, .save params :: calls => loads (save n mask es params) calls
  | es, .load params :: calls =>
    let (es, found, out) := load mask es params
    (found, out) :: loads es calls

variable {n mask} {es : List LruEntry} {params : Params} {i : SessionId}

-- A save adds at most the masked ID it is made with.
theorem mem_ids_save (hi : i ∈ (save n mask es params).map (·.id)) :
    i ∈ es.map (·.id) ∨ i = mask params.sessionId := by
  dsimp only [save] at hi
  split at hi
  · exact .inl hi
  · simp only [List.map_cons, List.mem_cons] at hi
    rcases hi with rfl | hi
    · exact .inr rfl
    · refine .inl (List.map_subset _ ?_ hi)
      split
      exacts [List.dropLast_subset es, List.Subset.refl es]

-- A load only reorders the map.
theorem mem_ids_load (hi : i ∈ (load mask es params).1.map (·.id)) : i ∈ es.map (·.id) := by
  unfold load at hi
  split at hi
  · simp only [List.map_cons, List.mem_cons] at hi
    rcases hi with rfl | hi
    · exact List.mem_map_of_mem _ (List.mem_of_find?_eq_some ‹_›)
    · exact List.map_subset _ (List.erase_subset _ _) hi
  · exact hi

end LruMap

-- The results of the loads of a history.
def Event.loads : List Event → List (Bool × Params)
  | [] => []
  | .save .. :: evs => loads evs
  | .load _ found out :: evs => (found, out) :: loads evs

def Event.isSave : Event → Bool
  | .save .. => true
  | .load .. => false

-- The masked IDs the saves of a history are made with.
def Event.saved (mask : SessionId → SessionId) (evs : List Event) : List SessionId :=
  evs.filterMap fun
    | .save params _ => some (mask params.sessionId)
    | .load .. => none

-- The LRU list's rule on masked IDs, for saves of masked IDs it lacks: with room for `n`
-- entries, a save puts its ID first and drops the last one of a full list, and a load that
-- finds its session moves its ID first.
def Event.touch (n : Nat) (mask : SessionId → SessionId) (ids : List SessionId) :
    Event → List SessionId
  | .save params _ =>
    if n = 0 then ids else mask params.sessionId :: (if ids.length = n then ids.dropLast else ids)
  | .load params found _ =>
    if found then mask params.sessionId :: ids.erase (mask params.sessionId) else ids

-- The masked IDs on the LRU list after a history, the most recently used first.
def Event.recency (n : Nat) (mask : SessionId → SessionId) (evs : List Event) : List SessionId :=
  evs.foldl (Event.touch n mask) []

namespace Event

variable {n : Nat} {mask : SessionId → SessionId} {evs : List Event} {ids : List SessionId}
  {k : SessionId} {params out : Params} {slot : Option UInt32} {found : Bool}

@[simp] theorem recency_nil : recency n mask [] = [] := rfl

@[simp] theorem recency_append (e : Event) :
    recency n mask (evs ++ [e]) = touch n mask (recency n mask evs) e := by
  simp [recency]

@[simp] theorem saved_append_save :
    saved mask (evs ++ [.save params slot]) = saved mask evs ++ [mask params.sessionId] := by
  simp [saved]

@[simp] theorem saved_append_load : saved mask (evs ++ [.load params found out]) = saved mask evs := by
  simp [saved]

-- A save adds at most its own masked ID, a load only one it finds.
theorem mem_touch_save (hk : k ∈ touch n mask ids (.save params slot)) :
    k ∈ ids ∨ k = mask params.sessionId := by
  dsimp only [touch] at hk
  split at hk
  · exact .inl hk
  · rcases List.mem_cons.mp hk with rfl | hk
    · exact .inr rfl
    · split at hk
      exacts [.inl (List.dropLast_subset _ hk), .inl hk]

theorem mem_touch_load (hk : k ∈ touch n mask ids (.load params found out)) :
    k ∈ ids ∨ found = true ∧ k = mask params.sessionId := by
  dsimp only [touch] at hk
  split at hk
  · rcases List.mem_cons.mp hk with rfl | hk
    · exact .inr ⟨‹_›, rfl⟩
    · exact .inl (List.erase_subset _ _ hk)
  · exact .inl hk

-- Over saves only, the list holds the last `n` masked IDs saved, the latest first.
theorem recency_of_saves (hs : ∀ e ∈ evs, e.isSave) :
    recency n mask evs = ((saved mask evs).reverse).take n := by
  induction evs using List.reverseRecOn with
  | nil => simp [saved]
  | append_singleton evs e ih =>
    rcases e with ⟨params, slot⟩ | ⟨params, found, out⟩
    case load => exact absurd (hs _ (List.mem_append_right _ (List.mem_singleton_self _))) (by simp [isSave])
    rw [recency_append, saved_append_save, ih fun e he => hs e (List.mem_append_left _ he),
      List.reverse_append, List.reverse_singleton, List.singleton_append]
    rcases n with _ | m
    · rfl
    · rw [List.take_succ_cons]
      simp only [touch, Nat.add_one_ne_zero, if_false]
      congr 1
      split
      case isTrue hl =>
        rw [List.dropLast_eq_take, hl, List.take_take, Nat.add_sub_cancel, Nat.min_eq_left (Nat.le_succ m)]
      case isFalse hl =>
        simp only [List.length_take] at hl
        rw [List.take_of_length_le (by omega), List.take_of_length_le (by omega)]

end Event

open SessionCacheLru

-- Sessions 0 and 1 saved in a block of two entries, 0 loaded, 2 saved, 0 loaded again.
def lruCalls : List Call :=
  [.save (.ofByte 0), .save (.ofByte 1), .load (.ofByte 0), .save (.ofByte 2), .load (.ofByte 0)]

theorem lruLoad_differs_from_lruMap :
    (run id 4 (init Store.blank 200) lruCalls).map (fun r => (Event.loads r.1).map Prod.fst) =
      some [true, false] ∧
    (LruMap.loads (200 / lruEntryLen) id [] lruCalls).map Prod.fst = [true, true] := by
  decide

end BearSSL
