import BearSSL.Session
import Mathlib.Logic.Function.Basic

namespace BearSSL

-- The entry layout of `ssl_lru.c`.
def sessionIdOff : Nat := 0
def masterSecretOff : Nat := 32
def versionOff : Nat := 80
def cipherSuiteOff : Nat := 82
def listPrevOff : Nat := 84
def listNextOff : Nat := 88
def treeLeftOff : Nat := 92
def treeRightOff : Nat := 96

def lruEntryLen : Nat := 100

def addrNull : UInt32 := 0xFFFFFFFF

theorem uint32_toNat_add (a b : UInt32) : (a + b).toNat = (a.toNat + b.toNat) % UInt32.size :=
  BitVec.toNat_add _ _

theorem addrNull_toNat : addrNull.toNat = UInt32.size - 1 :=
  rfl

theorem eq_addrNull_iff {x : UInt32} : x = addrNull ↔ x.toNat = UInt32.size - 1 :=
  ⟨(· ▸ rfl), fun h => UInt32.toNat.inj (h.trans addrNull_toNat.symm)⟩

-- The store block, split by the kind of field stored (the code reads every field with the
-- width it wrote it with): `word` holds the 32-bit big-endian links, the other maps the
-- entries' data. Each map is indexed by the byte offset of the field in the block.
structure Store where
  sessionId : Nat → SessionId
  masterSecret : Nat → MasterSecret
  version : Nat → UInt16
  cipherSuite : Nat → UInt16
  word : Nat → UInt32

-- A block of `0xFF` bytes, for runs on fixed inputs: every link in it reads as null.
def Store.blank : Store :=
  ⟨fun _ => ⟨List.replicate 32 0xFF, rfl⟩, fun _ => ⟨List.replicate 48 0xFF, rfl⟩, fun _ => 0xFFFF,
    fun _ => 0xFFFF, fun _ => addrNull⟩

def Store.setWord (s : Store) (a : Nat) (v : UInt32) : Store :=
  { s with word := Function.update s.word a v }

-- `br_ssl_session_cache_lru`. The vtable is left out, and so are `index_key` and `hash`: the
-- keyed masking they implement is a parameter `mask` of `lru_save` and `lru_load`.
structure SessionCacheLru where
  store : Store
  storeLen : Nat
  storePtr : Nat
  initDone : Bool
  head : UInt32
  tail : UInt32
  root : UInt32

-- The offsets handed out below `ptr`: `0, 100, …, ptr - 100`.
def Allocated (ptr : Nat) (x : UInt32) : Prop :=
  x.toNat % lruEntryLen = 0 ∧ x.toNat < ptr

-- What a link may hold: the null address or an allocated entry.
def Valid (ptr : Nat) (x : UInt32) : Prop :=
  x = addrNull ∨ Allocated ptr x

-- An entry's offset in a block of at most `2^32 - 1` bytes.
def IsEntry (x : UInt32) : Prop :=
  x.toNat % lruEntryLen = 0 ∧ x.toNat + lruEntryLen < UInt32.size

instance : DecidablePred (Allocated ptr) := fun _ => inferInstanceAs (Decidable (_ ∧ _))

instance : DecidablePred (Valid ptr) := fun _ => inferInstanceAs (Decidable (_ ∨ _))

instance : DecidablePred IsEntry := fun _ => inferInstanceAs (Decidable (_ ∧ _))

namespace IsEntry

variable {x y : UInt32}

theorem ne_addrNull (h : IsEntry x) : x ≠ addrNull := by
  rw [Ne, eq_addrNull_iff]; have := h.2; simp only [lruEntryLen] at this; omega

theorem add_toNat (h : IsEntry x) (ho : off < lruEntryLen) :
    (x + off.toUInt32).toNat = x.toNat + off := by
  have := h.2
  simp only [lruEntryLen] at *
  rw [uint32_toNat_add, UInt32.toNat_ofNat_of_lt (by simp [UInt32.size]; omega),
    Nat.mod_eq_of_lt (by omega)]

theorem add_ne_addrNull (h : IsEntry x) (ho : off < lruEntryLen) : x + off.toUInt32 ≠ addrNull := by
  rw [Ne, eq_addrNull_iff, h.add_toNat ho]; have := h.2; omega

-- Fields of two entries sit at one address only when the entries and the fields coincide.
theorem field_eq_iff (hx : IsEntry x) (hy : IsEntry y) (ho : off < lruEntryLen)
    (ho' : off' < lruEntryLen) : x.toNat + off = y.toNat + off' ↔ x = y ∧ off = off' := by
  have := hx.1; have := hy.1
  simp only [lruEntryLen] at *
  constructor
  · intro h
    have : x.toNat = y.toNat := by omega
    exact ⟨UInt32.toNat.inj this, by omega⟩
  · rintro ⟨rfl, rfl⟩; rfl

theorem add_eq_add_iff (hx : IsEntry x) (hy : IsEntry y) (ho : off < lruEntryLen)
    (ho' : off' < lruEntryLen) : x + off.toUInt32 = y + off'.toUInt32 ↔ x = y ∧ off = off' := by
  rw [← hx.field_eq_iff hy ho ho', ← hx.add_toNat ho, ← hy.add_toNat ho']
  exact ⟨congrArg _, UInt32.toNat.inj⟩

end IsEntry

theorem Allocated.isEntry (h : Allocated ptr x) (hp : ptr ≤ len) (hl : len < UInt32.size)
    (hd : ptr % lruEntryLen = 0) : IsEntry x := by
  obtain ⟨h₁, h₂⟩ := h
  refine ⟨h₁, ?_⟩
  simp only [lruEntryLen] at *
  omega

theorem Allocated.fits (h : Allocated ptr x) (hd : ptr % lruEntryLen = 0) (hp : ptr ≤ len) :
    x.toNat + lruEntryLen ≤ len := by
  obtain ⟨h₁, h₂⟩ := h
  simp only [lruEntryLen] at *
  omega

theorem Allocated.mono (h : Allocated ptr x) (hp : ptr ≤ ptr') : Allocated ptr' x :=
  ⟨h.1, by have := h.2; omega⟩

theorem Valid.mono (h : Valid ptr x) (hp : ptr ≤ ptr') : Valid ptr' x :=
  h.imp_right (·.mono hp)

-- Bumping the pointer by one entry allocates exactly the entry at the old pointer.
theorem allocated_add_iff (hd : ptr % lruEntryLen = 0) (hp : ptr < UInt32.size) :
    Allocated (ptr + lruEntryLen) x ↔ Allocated ptr x ∨ x = ptr.toUInt32 := by
  have hx : ptr.toUInt32.toNat = ptr := UInt32.toNat_ofNat_of_lt hp
  rw [show x = ptr.toUInt32 ↔ x.toNat = ptr from
    ⟨fun e => e ▸ hx, fun e => UInt32.toNat.inj (e.trans hx.symm)⟩]
  simp only [Allocated, lruEntryLen] at *
  omega

namespace SessionCacheLru

variable (cc : SessionCacheLru)

-- `GETSET(name, off)`: the link at offset `off` of the entry at `x`.
def get (off : Nat) (x : UInt32) : UInt32 :=
  cc.store.word (x.toNat + off)

def set (off : Nat) (x val : UInt32) : SessionCacheLru :=
  { cc with store := cc.store.setWord (x.toNat + off) val }

def getPrev : UInt32 → UInt32 := cc.get listPrevOff
abbrev setPrev : UInt32 → UInt32 → SessionCacheLru := cc.set listPrevOff
def getNext : UInt32 → UInt32 := cc.get listNextOff
abbrev setNext : UInt32 → UInt32 → SessionCacheLru := cc.set listNextOff
def getLeft : UInt32 → UInt32 := cc.get treeLeftOff
abbrev setLeft : UInt32 → UInt32 → SessionCacheLru := cc.set treeLeftOff
def getRight : UInt32 → UInt32 := cc.get treeRightOff
abbrev setRight : UInt32 → UInt32 → SessionCacheLru := cc.set treeRightOff

-- The masked ID stored in the entry at `x`.
def key (x : UInt32) : SessionId :=
  cc.store.sessionId (x.toNat + sessionIdOff)

-- `set_link`: store `x` in the link at address `alx`, the root when `alx` is null.
def setLink (alx x : UInt32) : SessionCacheLru :=
  if alx = addrNull then { cc with root := x } else { cc with store := cc.store.setWord alx.toNat x }

-- The value `set_link` overwrites.
def readLink (alx : UInt32) : UInt32 :=
  if alx = addrNull then cc.root else cc.store.word alx.toNat

variable {cc} {off off' : Nat} {x y v : UInt32}

@[simp] theorem set_store_sessionId : (cc.set off x v).store.sessionId = cc.store.sessionId := rfl
@[simp] theorem set_store_masterSecret : (cc.set off x v).store.masterSecret = cc.store.masterSecret := rfl
@[simp] theorem set_store_version : (cc.set off x v).store.version = cc.store.version := rfl
@[simp] theorem set_store_cipherSuite : (cc.set off x v).store.cipherSuite = cc.store.cipherSuite := rfl
@[simp] theorem set_storeLen : (cc.set off x v).storeLen = cc.storeLen := rfl
@[simp] theorem set_storePtr : (cc.set off x v).storePtr = cc.storePtr := rfl
@[simp] theorem set_initDone : (cc.set off x v).initDone = cc.initDone := rfl
@[simp] theorem set_head : (cc.set off x v).head = cc.head := rfl
@[simp] theorem set_tail : (cc.set off x v).tail = cc.tail := rfl
@[simp] theorem set_root : (cc.set off x v).root = cc.root := rfl

@[simp] theorem set_store_word :
    (cc.set off x v).store.word = Function.update cc.store.word (x.toNat + off) v := rfl

@[simp] theorem setLink_store_sessionId : (cc.setLink x v).store.sessionId = cc.store.sessionId := by
  unfold setLink; split <;> rfl
@[simp] theorem setLink_store_masterSecret :
    (cc.setLink x v).store.masterSecret = cc.store.masterSecret := by
  unfold setLink; split <;> rfl
@[simp] theorem setLink_store_version : (cc.setLink x v).store.version = cc.store.version := by
  unfold setLink; split <;> rfl
@[simp] theorem setLink_store_cipherSuite :
    (cc.setLink x v).store.cipherSuite = cc.store.cipherSuite := by
  unfold setLink; split <;> rfl
@[simp] theorem setLink_storeLen : (cc.setLink x v).storeLen = cc.storeLen := by
  unfold setLink; split <;> rfl
@[simp] theorem setLink_storePtr : (cc.setLink x v).storePtr = cc.storePtr := by
  unfold setLink; split <;> rfl
@[simp] theorem setLink_initDone : (cc.setLink x v).initDone = cc.initDone := by
  unfold setLink; split <;> rfl
@[simp] theorem setLink_head : (cc.setLink x v).head = cc.head := by
  unfold setLink; split <;> rfl
@[simp] theorem setLink_tail : (cc.setLink x v).tail = cc.tail := by
  unfold setLink; split <;> rfl

theorem setLink_root : (cc.setLink x v).root = if x = addrNull then v else cc.root := by
  unfold setLink; split <;> rfl

theorem setLink_store_word :
    (cc.setLink x v).store.word =
      if x = addrNull then cc.store.word else Function.update cc.store.word x.toNat v := by
  unfold setLink; split <;> rfl

theorem get_def : cc.get off x = cc.store.word (x.toNat + off) :=
  rfl

-- `cc->head = x` and `cc->tail = x`.
@[simps] def setHead (x : UInt32) : SessionCacheLru := { cc with head := x }
@[simps] def setTail (x : UInt32) : SessionCacheLru := { cc with tail := x }

@[simp] theorem getPrev_setHead : (cc.setHead v).getPrev y = cc.getPrev y := rfl
@[simp] theorem getNext_setHead : (cc.setHead v).getNext y = cc.getNext y := rfl
@[simp] theorem getLeft_setHead : (cc.setHead v).getLeft y = cc.getLeft y := rfl
@[simp] theorem getRight_setHead : (cc.setHead v).getRight y = cc.getRight y := rfl
@[simp] theorem getPrev_setTail : (cc.setTail v).getPrev y = cc.getPrev y := rfl
@[simp] theorem getNext_setTail : (cc.setTail v).getNext y = cc.getNext y := rfl
@[simp] theorem getLeft_setTail : (cc.setTail v).getLeft y = cc.getLeft y := rfl
@[simp] theorem getRight_setTail : (cc.setTail v).getRight y = cc.getRight y := rfl

@[simp] theorem key_set : (cc.set off x v).key y = cc.key y := rfl
@[simp] theorem key_setLink : (cc.setLink x v).key y = cc.key y := by simp [key]

theorem get_set : (cc.set off x v).get off' y = if y.toNat + off' = x.toNat + off then v else cc.get off' y := by
  simp [get, Function.update_apply]

-- A write to a field of an entry changes that field of that entry only.
theorem get_set_of_isEntry (hy : IsEntry y) (hx : IsEntry x) (ho : off < lruEntryLen)
    (ho' : off' < lruEntryLen) :
    (cc.set off x v).get off' y = if y = x ∧ off' = off then v else cc.get off' y := by
  simp only [get_set, hy.field_eq_iff hx ho' ho]

end SessionCacheLru

end BearSSL
