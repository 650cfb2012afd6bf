import BearSSL.Lru.Search

namespace BearSSL.SessionCacheLru

variable (cc : SessionCacheLru)

-- `remove_node`.
def removeNode (fuel : Nat) (x : UInt32) : Option SessionCacheLru := do
  let (_, alx) ← cc.findNode fuel (cc.key x)
  let (y, aly) ← cc.findReplacementNode fuel x
  return (cc.setLink aly addrNull).setLink alx y

-- `lru_save`, when the cache is full: unlink the list tail.
def unlinkTail : SessionCacheLru :=
  let cc := cc.setTail (cc.getPrev cc.tail)
  if cc.tail = addrNull then cc.setHead addrNull else cc.setNext cc.tail addrNull

-- `lru_save`, when the cache is full: the list tail, unlinked and removed from the tree.
def evictTail (fuel : Nat) : Option (SessionCacheLru × UInt32) :=
  (cc.unlinkTail.removeNode fuel cc.tail).map (·, cc.tail)

-- `lru_save`, when the cache is not full: the next entry of the block.
def allocate : SessionCacheLru × UInt32 :=
  ({ cc with storePtr := cc.storePtr + lruEntryLen }, cc.storePtr.toUInt32)

-- `lru_save`: the new entry `x` becomes the list head.
def pushHead (x : UInt32) : SessionCacheLru :=
  let cc := if cc.head = addrNull then cc.setTail x else cc.setPrev cc.head x
  let cc := (cc.setPrev x addrNull).setNext x cc.head
  cc.setHead x

-- `lru_save`: fill the data of entry `x`.
def fill (x : UInt32) (id : SessionId) (params : Params) : SessionCacheLru :=
  { cc with store := { cc.store with
      sessionId := Function.update cc.store.sessionId (x.toNat + sessionIdOff) id
      masterSecret :=
        Function.update cc.store.masterSecret (x.toNat + masterSecretOff) params.masterSecret
      version := Function.update cc.store.version (x.toNat + versionOff) params.version
      cipherSuite :=
        Function.update cc.store.cipherSuite (x.toNat + cipherSuiteOff) params.cipherSuite } }

-- `lru_save`: find room for the new entry, evicting the list tail when the block is full.
def makeRoom (fuel : Nat) : Option (SessionCacheLru × UInt32) :=
  if cc.storePtr > cc.storeLen - lruEntryLen then cc.evictTail fuel else some cc.allocate

-- `lru_save`: hang the new entry `x`, with no children, on the link at address `alx`.
def insertLeaf (alx x : UInt32) : SessionCacheLru :=
  ((cc.setLink alx x).setLeft x addrNull).setRight x addrNull

-- `lru_save`, with `mask` the keyed HMAC `mask_id` computes from the key drawn at the first
-- save. Besides the context it returns the entry it filled, `none` when the save is dropped:
-- `lru_save` returns nothing, this is recorded in histories only.
def lruSave (mask : SessionId → SessionId) (fuel : Nat) (params : Params) :
    Option (SessionCacheLru × Option UInt32) := do
  if cc.storeLen < lruEntryLen then return (cc, none)
  let cc := { cc with initDone := true }
  let id := mask params.sessionId
  let (found, _) ← cc.findNode fuel id
  if found ≠ addrNull then return (cc, none)
  let (cc, x) ← cc.makeRoom fuel
  let (_, alx) ← cc.findNode fuel id
  return (((cc.insertLeaf alx x).pushHead x).fill x id params, some x)

-- `lru_load`: move the found entry `x` to the list head.
def moveToHead (x : UInt32) : SessionCacheLru :=
  let p := cc.getPrev x
  let n := cc.getNext x
  let cc := cc.setNext p n
  let cc := if n = addrNull then cc.setTail p else cc.setPrev n p
  let cc := cc.setPrev cc.head x
  let cc := cc.setNext x cc.head
  let cc := cc.setPrev x addrNull
  cc.setHead x

-- `lru_load`: whether the session is found, and `params` with the cached fields copied in.
def lruLoad (mask : SessionId → SessionId) (fuel : Nat) (params : Params) :
    Option (SessionCacheLru × Bool × Params) := do
  if !cc.initDone then return (cc, false, params)
  let (x, _) ← cc.findNode fuel (mask params.sessionId)
  if x = addrNull then return (cc, false, params)
  let params := { params with
    version := cc.store.version (x.toNat + versionOff)
    cipherSuite := cc.store.cipherSuite (x.toNat + cipherSuiteOff)
    masterSecret := cc.store.masterSecret (x.toNat + masterSecretOff) }
  return (if x ≠ cc.head then cc.moveToHead x else cc, true, params)

-- `br_ssl_session_cache_lru_init`, over a block whose contents are `store`.
def init (store : Store) (storeLen : Nat) : SessionCacheLru where
  store := store
  storeLen := storeLen
  storePtr := 0
  initDone := false
  head := addrNull
  tail := addrNull
  root := addrNull

variable {cc} {cc' : SessionCacheLru} {mask : SessionId → SessionId} {fuel : Nat}
  {params out : Params} {slot : Option UInt32} {found : Bool}

-- Everything a call of `lru_save` can do.
theorem lruSave_eq_some (h : cc.lruSave mask fuel params = some (cc', slot)) :
    (cc.storeLen < lruEntryLen ∧ cc' = cc ∧ slot = none) ∨
    lruEntryLen ≤ cc.storeLen ∧ ∃ f al,
      { cc with initDone := true }.findNode fuel (mask params.sessionId) = some (f, al) ∧
      (f ≠ addrNull ∧ cc' = { cc with initDone := true } ∧ slot = none ∨
       f = addrNull ∧ ∃ c x g alx, { cc with initDone := true }.makeRoom fuel = some (c, x) ∧
         c.findNode fuel (mask params.sessionId) = some (g, alx) ∧
         cc' = ((c.insertLeaf alx x).pushHead x).fill x (mask params.sessionId) params ∧
         slot = some x) := by
  unfold lruSave at h
  by_cases hl : cc.storeLen < lruEntryLen
  · simp_all
  · simp only [hl, if_false, bind, pure, Option.some_bind, Option.bind_eq_some'] at h
    obtain ⟨⟨f, al⟩, hf, h⟩ := h
    refine .inr ⟨by omega, f, al, hf, ?_⟩
    by_cases hx : f = addrNull
    · simp only [hx, ne_eq, not_true, if_false, Option.some_bind, Option.bind_eq_some',
        Option.some.injEq, Prod.mk.injEq] at h
      obtain ⟨⟨c, x⟩, hr, ⟨g, alx⟩, hg, h⟩ := h
      exact .inr ⟨hx, c, x, g, alx, hr, hg, h.1.symm, h.2.symm⟩
    · simp only [hx, ne_eq, not_false_eq_true, if_true, Option.some.injEq, Prod.mk.injEq] at h
      exact .inl ⟨hx, h.1.symm, h.2.symm⟩

-- Everything a call of `lru_load` can do.
theorem lruLoad_eq_some (h : cc.lruLoad mask fuel params = some (cc', found, out)) :
    (cc.initDone = false ∧ cc' = cc ∧ found = false ∧ out = params) ∨
    cc.initDone = true ∧ ∃ x al, cc.findNode fuel (mask params.sessionId) = some (x, al) ∧
      (x = addrNull ∧ cc' = cc ∧ found = false ∧ out = params ∨
       x ≠ addrNull ∧ cc' = (if x ≠ cc.head then cc.moveToHead x else cc) ∧ found = true ∧
        out = { params with
          version := cc.store.version (x.toNat + versionOff)
          cipherSuite := cc.store.cipherSuite (x.toNat + cipherSuiteOff)
          masterSecret := cc.store.masterSecret (x.toNat + masterSecretOff) }) := by
  unfold lruLoad at h
  cases hi : cc.initDone
  · simp_all
  · simp only [hi, bind, pure, Option.some_bind, Bool.not_true, Bool.false_eq_true, if_false,
      Option.bind_eq_some'] at h
    obtain ⟨⟨x, al⟩, hf, h⟩ := h
    refine .inr ⟨rfl, x, al, hf, ?_⟩
    by_cases hx : x = addrNull <;>
      simp only [hx, if_true, if_false, Option.some.injEq, Prod.mk.injEq] at h <;>
      simp [hx, ← h.1, ← h.2.1, ← h.2.2]

-- `fill` writes entry data only.
@[simp] theorem fill_root : (cc.fill x k params).root = cc.root := rfl
@[simp] theorem fill_initDone : (cc.fill x k params).initDone = cc.initDone := rfl
@[simp] theorem fill_storePtr : (cc.fill x k params).storePtr = cc.storePtr := rfl
@[simp] theorem fill_storeLen : (cc.fill x k params).storeLen = cc.storeLen := rfl
theorem fill_getLeft : (cc.fill x k params).getLeft y = cc.getLeft y := rfl
theorem fill_getRight : (cc.fill x k params).getRight y = cc.getRight y := rfl

end SessionCacheLru

open SessionCacheLru

inductive Event
  | save (params : Params) (slot : Option UInt32)
  | load (params : Params) (found : Bool) (out : Params)

-- `Exec mask evs cc`: the calls recorded in `evs`, made in order on a cache just initialised
-- over a block of at most `2^32 - 1` bytes, all return, and leave the cache `cc`.
inductive Exec (mask : SessionId → SessionId) : List Event → SessionCacheLru → Prop
  | init (store : Store) (storeLen : Nat) (h : storeLen < UInt32.size) :
      Exec mask [] (init store storeLen)
  | save : Exec mask evs cc → cc.lruSave mask fuel params = some (cc', slot) →
      Exec mask (evs ++ [.save params slot]) cc'
  | load : Exec mask evs cc → cc.lruLoad mask fuel params = some (cc', found, out) →
      Exec mask (evs ++ [.load params found out]) cc'

def Reachable (mask : SessionId → SessionId) (cc : SessionCacheLru) : Prop :=
  ∃ evs, Exec mask evs cc

-- A client's calls, made one after another with the same fuel.
inductive Call
  | save (params : Params)
  | load (params : Params)

def run (mask : SessionId → SessionId) (fuel : Nat) :
    SessionCacheLru → List Call → Option (List Event × SessionCacheLru)
  | cc, [] => some ([], cc)
  | cc, .save params :: calls => do
    let (cc, slot) ← cc.lruSave mask fuel params
    let (evs, cc) ← run mask fuel cc calls
    return (.save params slot :: evs, cc)
  | cc, .load params :: calls => do
    let (cc, found, out) ← cc.lruLoad mask fuel params
    let (evs, cc) ← run mask fuel cc calls
    return (.load params found out :: evs, cc)

variable {mask : SessionId → SessionId} {evs evs' : List Event} {cc cc' : SessionCacheLru}

theorem Exec.run (h : Exec mask evs cc) (hr : run mask fuel cc calls = some (evs', cc')) :
    Exec mask (evs ++ evs') cc' := by
  induction calls generalizing evs evs' cc with
  | nil => cases hr; simpa using h
  | cons c calls ih =>
    cases c <;> simp only [BearSSL.run, bind, pure, Option.bind_eq_some', Option.some.injEq,
      Prod.mk.injEq] at hr
    case save params =>
      obtain ⟨⟨c, slot⟩, hs, ⟨evs₁, c₁⟩, hr, rfl, rfl⟩ := hr
      simpa using ih (h.save hs) hr
    case load params =>
      obtain ⟨⟨c, found, out⟩, hl, ⟨evs₁, c₁⟩, hr, rfl, rfl⟩ := hr
      simpa using ih (h.load hl) hr

-- The last call of a history that ends in a load.
theorem Exec.of_snoc_load {params out : Params} {found : Bool}
    (h : Exec mask (evs ++ [.load params found out]) cc') :
    ∃ cc fuel, Exec mask evs cc ∧ cc.lruLoad mask fuel params = some (cc', found, out) := by
  generalize he : evs ++ [Event.load params found out] = evs' at h
  cases h with
  | init => simp at he
  | save => cases (List.append_inj' he rfl).2
  | load h hl =>
    obtain ⟨rfl, he'⟩ := List.append_inj' he rfl
    clear he
    cases he'
    exact ⟨_, _, h, hl⟩

-- The calls of a run that returns, made on a just initialised cache, form a history.
theorem exec_of_run {s : Store} {len : Nat} (hl : len < UInt32.size)
    (h : (run mask fuel (init s len) calls).isSome) :
    Exec mask ((run mask fuel (init s len) calls).get h).1
      ((run mask fuel (init s len) calls).get h).2 := by
  simpa using (Exec.init s len hl).run (Option.some_get h).symm

-- Sessions 0 and 1 saved, with mask `id`, in a block of three entries: the history, and the
-- state it leaves, whose tree is the root 0 with its right child 100.
def twoSavedRun : List Event × SessionCacheLru :=
  (run id 4 (init Store.blank 300) [.save (.ofByte 0), .save (.ofByte 1)]).get (by decide)

def twoSaved : SessionCacheLru := twoSavedRun.2

theorem twoSaved_exec : Exec id twoSavedRun.1 twoSaved := exec_of_run (by decide) _

end BearSSL
