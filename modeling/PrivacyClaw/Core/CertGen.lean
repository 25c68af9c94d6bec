import Mathlib.Data.List.AList
import PrivacyClaw.Core.Text
import PrivacyClaw.Lib.Locks

/-!
# Certificates

The cache of leaf certificates, from `src/ca/cert_gen.rs`.

There are two caches, each behind a lock of its own: server configurations for
connections that came by CONNECT, and certified keys for those that came by the
network proxy. A configuration is made from a certified key, so a miss in the
first cache looks in the second one, with the first lock held. Every other lock
is given back where its guard goes out of scope, also when a `?` returns early.

What the libraries make of the CA's key and a domain is a parameter: the leaf
certificate and its key, or nothing if any of their calls fails. It depends on
what they draw. A poisoned lock needs a panic behind it, and nothing panics
there.

## Main definitions

* `CaBundle`, `CertifiedKey`, `ServerConfig`, `CertCache`: The data.
* `buildCertifiedKey`: A leaf signed by the CA.
* `CertCache.getOrCreateKey`, `CertCache.getOrCreate`: The calls as such.
* `CertThread`, `certCode`: The calls lock by lock.
-/

namespace PrivacyClaw

/-- `CaBundle`. -/
structure CaBundle where
  keyPem : Str
  certDer : Str

/-- `CertifiedKey`: a chain with the leaf first, and the leaf's key. -/
structure CertifiedKey where
  certChain : List Str
  signingKey : Str
  deriving DecidableEq

/-- `ServerConfig`, with the key its resolver answers with. -/
structure ServerConfig where
  resolver : CertifiedKey
  alpnProtocols : List Str
  deriving DecidableEq

/-- The two caches of `CertCache`. -/
structure CertCache where
  acceptorCache : AList (fun _ : Str => ServerConfig)
  keyCache : AList (fun _ : Str => CertifiedKey)

/-- `CertCache::new`. -/
def CertCache.new : CertCache := ⟨∅, ∅⟩

section

variable {ι : Type} (issue : Str → Str → ι → Option (Str × Str)) (ca : CaBundle)

/-- `build_certified_key`; the chain ends with the CA's own certificate. -/
def buildCertifiedKey (domain : Str) (drawn : ι) : Option CertifiedKey :=
  (issue ca.keyPem domain drawn).map fun leaf => ⟨[leaf.1, ca.certDer], leaf.2⟩

/-- The configuration that `get_or_create` builds from a key. -/
def serverConfig (ck : CertifiedKey) : ServerConfig := ⟨ck, [lit "http/1.1"]⟩

namespace CertCache

variable (c : CertCache) (domain : Str) (drawn : ι)

/-- `get_or_create_key_inner`. -/
def getOrCreateKeyInner : CertCache × Option CertifiedKey :=
  match c.keyCache.lookup domain with
  | some ck => (c, some ck)
  | none =>
    match buildCertifiedKey issue ca domain drawn with
    | none => (c, none)
    | some ck => ({ c with keyCache := c.keyCache.insert domain ck }, some ck)

/-- `get_or_create_key`. -/
def getOrCreateKey : CertCache × Option CertifiedKey := getOrCreateKeyInner issue ca c domain drawn

/-- `get_or_create`. -/
def getOrCreate : CertCache × Option ServerConfig :=
  match c.acceptorCache.lookup domain with
  | some cfg => (c, some cfg)
  | none =>
    match getOrCreateKeyInner issue ca c domain drawn with
    | (c, none) => (c, none)
    | (c, some ck) =>
      ({ c with acceptorCache := c.acceptorCache.insert domain (serverConfig ck) },
        some (serverConfig ck))

/-- `SniCertResolver::resolve`. -/
def resolve (serverName : Option Str) : CertCache × Option CertifiedKey :=
  match serverName with
  | none => (c, none)
  | some domain => getOrCreateKey issue ca c domain drawn

end CertCache

end

/-- The locks of the two caches, in the order in which they are taken. -/
inductive CertLock where
  | acceptor
  | key
  deriving DecidableEq

/-- The place of a lock in the order. -/
def CertLock.rank : CertLock → Nat
  | .acceptor => 0
  | .key => 1

instance : Preorder CertLock := Preorder.lift CertLock.rank

/-- Who called `get_or_create_key_inner`. -/
inductive CertCaller where
  | getOrCreate
  | getOrCreateKey
  deriving DecidableEq

/-- Where `get_or_create_key_inner` stands, with its lock held. -/
inductive KeyPhase where
  | locked
  | missed
  | found (r : Option CertifiedKey)

/-- Where a call stands, from `get_or_create` or `get_or_create_key` to what it
    returns. -/
inductive CertThread where
  | connect (domain : Str)
  | acceptorLocked (domain : Str)
  | acceptorMissed (domain : Str)
  | inner (domain : Str) (caller : CertCaller) (phase : KeyPhase)
  | keyReturned (domain : Str) (r : Option CertifiedKey)
  | acceptorDone (domain : Str) (r : Option ServerConfig)
  | accepted (domain : Str) (r : Option ServerConfig)
  | network (domain : Str)
  | served (domain : Str) (r : Option CertifiedKey)

/-- What a call does next. -/
def certCode {ι : Type} (issue : Str → Str → ι → Option (Str × Str)) (ca : CaBundle) :
    CertThread → Locks.Move CertLock ι CertCache CertThread
  | .connect d => .acquire .acceptor (.acceptorLocked d)
  | .acceptorLocked d => .act fun _ c =>
    match c.acceptorCache.lookup d with
    | some cfg => (c, .acceptorDone d (some cfg))
    | none => (c, .acceptorMissed d)
  | .acceptorMissed d => .acquire .key (.inner d .getOrCreate .locked)
  | .network d => .acquire .key (.inner d .getOrCreateKey .locked)
  | .inner d caller .locked => .act fun _ c =>
    match c.keyCache.lookup d with
    | some ck => (c, .inner d caller (.found (some ck)))
    | none => (c, .inner d caller .missed)
  | .inner d caller .missed => .act fun drawn c =>
    match buildCertifiedKey issue ca d drawn with
    | none => (c, .inner d caller (.found none))
    | some ck =>
      ({ c with keyCache := c.keyCache.insert d ck }, .inner d caller (.found (some ck)))
  | .inner d .getOrCreateKey (.found r) => .release .key (.served d r)
  | .inner d .getOrCreate (.found r) => .release .key (.keyReturned d r)
  | .keyReturned d r => .act fun _ c =>
    match r with
    | none => (c, .acceptorDone d none)
    | some ck =>
      ({ c with acceptorCache := c.acceptorCache.insert d (serverConfig ck) },
        .acceptorDone d (some (serverConfig ck)))
  | .acceptorDone d r => .release .acceptor (.accepted d r)
  | .accepted _ _ => .done
  | .served _ _ => .done

end PrivacyClaw
