import BearSSL.Session
import BearSSL.Lru.Store
import BearSSL.Lru.Search
import BearSSL.Lru.Cache
import BearSSL.Lru.LruMap
import BearSSL.Lru.List
import BearSSL.Lru.Tree
import BearSSL.Lru.Theorems.FindNode
import BearSSL.Lru.Theorems.Replacement
import BearSSL.Lru.Theorems.Invariant
import BearSSL.Lru.Theorems.Provenance
import BearSSL.Lru.Theorems.Fuel
import BearSSL.Lru.Theorems.Removal
import BearSSL.Lru.Theorems.Refinement
import BearSSL.Lru.Theorems.Recency
