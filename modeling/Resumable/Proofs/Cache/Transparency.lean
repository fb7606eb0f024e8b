/-
  Resumable.Proofs.Cache.Transparency — a shared cache changes nothing but the number of temps.

  Compilers of any settings share one cache.  The cache may fail whenever it likes, lose what it was
  given, or hold what it cannot read back; all it must not do is find something under a key that
  nobody gave it under that key.  Then every request gets what it would get without a cache, and
  one that was found only lacks the number of temps.

  The invariant is about what the cache was given: everything under a key is the output of the
  document and the settings that the key stands for.

  Main results:
    * `serve_cases`                — what serving one request can do;
    * `Cache.Sound.serve`          — one request keeps the invariant and is answered rightly;
    * `shared_cache_transparent`   — so are all requests of a run.
-/
import Resumable.Proofs.Cache.Separation
import Resumable.Proofs.Code.Figures
import Mathlib.Data.List.Forall2

namespace Resumable

open Program (Output)

variable {σ : Type}

/-! ## §1. Faithful caches. -/

namespace Cache

/-- The entry an output is stored as. -/
def Entry.ofOutput (out : Output) : Entry :=
  { source := out.source, code := out.code, locals := some out.locals }

/-- Entries with the same text, code and local names; no names are as good as an empty list. -/
structure Entry.Same (e e' : Entry) : Prop where
  source : e.source = e'.source
  code : e.code = e'.code
  locals : e.locals.getD [] = e'.locals.getD []

namespace Access

/-- The states that compilers can bring a cache into, each with all they gave it to store on the
    way, whether storing went well or not. -/
inductive Reaches (cache : Access σ) (start : σ) : List (String × Entry) → σ → Prop where
  | start : Reaches cache start [] start
  | get {given : List (String × Entry)} {s : σ} (cancelled : Bool) (key : String) :
      Reaches cache start given s → Reaches cache start given (cache.get cancelled key s).2.2
  | put {given : List (String × Entry)} {s : σ} {c : Compiler} {document : Bytes} {out : Output}
      (cancelled : Bool) (key : String) :
      Reaches cache start given s → (c.compileDocument document).1 = .ok out →
      Reaches cache start ((key, .ofOutput out) :: given)
        (cache.put cancelled key (.ofOutput out) s).2.2

/-- A cache that is empty at the start, and finds under a key only what it was given under it. -/
def Faithful (cache : Access σ) (start : σ) : Prop :=
  ∀ {given s}, cache.Reaches start given s → ∀ {cancelled key e},
    (cache.get cancelled key s).1 = .ok (some e) → ∃ e', (key, e') ∈ given ∧ e.Same e'

end Access

end Cache

/-! ## §2. Requests. -/

/-- A document handed to the compiler of some settings. -/
structure Request where
  settings : Settings
  compiler : Compiler
  made : Compiler.ofSettings settings = .ok compiler
  document : Bytes
  cancelled : Bool := false

/-- What a request came to, and whether the cache had it. -/
structure Answer where
  hit : Bool
  result : Except Failure Output

/-- The answer of a compiler without a cache, except that one from the cache does not know the
    number of temps. -/
def Answer.AgreesWith (a : Answer) (fresh : Except Failure Output) : Prop :=
  if a.hit then
    ∃ out, fresh = .ok out ∧ a.result = .ok { out with stats := { out.stats with temps := 0 } }
  else a.result = fresh

namespace Request

/-- The key of a request. -/
def key (r : Request) : String := Cache.key r.compiler.fingerprint r.document

/-- The messages whose digests enter the key of a request. -/
def digested (r : Request) : List Bytes :=
  [r.settings.essence, Cache.keyed r.settings.fingerprint r.document]

/-- What a request comes to without a cache. -/
def fresh (r : Request) : Except Failure Output :=
  (r.compiler.compile (none : Option (Cache.Access Unit)) r.cancelled r.document ()).1

/-- Whether the cache has what a request asks for. -/
def isFound (r : Request) (cache : Cache.Access σ) (s : σ) : Bool :=
  match (cache.get r.cancelled r.key s).1 with
  | .ok (some _) => true
  | _ => false

/-- A request, answered with a cache. -/
def serve (r : Request) (cache : Cache.Access σ) (s : σ) : Answer × σ :=
  let (result, _, s') := r.compiler.compile (some cache) r.cancelled r.document s
  ({ hit := r.isFound cache s, result }, s')

/-- Requests, answered one after the other with the same cache. -/
def serveAll (cache : Cache.Access σ) : List Request → σ → List Answer
  | [], _ => []
  | r :: rest, s => (r.serve cache s).1 :: serveAll cache rest (r.serve cache s).2

/-- Without a cache a document is compiled and nothing else. -/
theorem fresh_eq (r : Request) : r.fresh = (r.compiler.compileDocument r.document).1 := by
  simp only [fresh, Compiler.compile]

/-- The fingerprint of a compiler is that of its settings. -/
theorem fingerprint_eq (r : Request) : r.compiler.fingerprint = r.settings.fingerprint := by
  obtain ⟨convention, -, h⟩ := bind_eq_ok r.made
  rw [← Except.ok.inj h]

/-- Compiling and storing gives what a request comes to without a cache, and stores it if that is
    an output. -/
theorem compileAndStore_cases (r : Request) (cache : Cache.Access σ) (log : List Log.Entry)
    (s : σ) {stored : Except Failure Output × List Log.Entry × σ}
    (h : r.compiler.compileAndStore cache r.cancelled r.document log s = stored) :
    (∃ err, r.fresh = .error err ∧ stored.1 = .error err ∧ stored.2.2 = s) ∨
    (∃ out, r.fresh = .ok out ∧ stored.1 = .ok out ∧
      stored.2.2 = (cache.put r.cancelled r.key (.ofOutput out) s).2.2) := by
  subst h
  rw [fresh_eq]
  unfold Compiler.compileAndStore
  rcases r.compiler.compileDocument r.document with ⟨result, more⟩
  cases result with
  | error err => exact .inl ⟨err, rfl, rfl, rfl⟩
  | ok out => exact .inr ⟨out, rfl, rfl, rfl⟩

/-- Serving a request finds an entry; or finds none and fails as without a cache; or finds none
    and stores what it gives without a cache. -/
theorem serve_cases (r : Request) (cache : Cache.Access σ) (s : σ) :
    (∃ e, (cache.get r.cancelled r.key s).1 = .ok (some e) ∧
      r.serve cache s =
        ({ hit := true, result := .ok (Compiler.cached e) }, (cache.get r.cancelled r.key s).2.2)) ∨
    (∃ err, r.fresh = .error err ∧
      r.serve cache s =
        ({ hit := false, result := .error err }, (cache.get r.cancelled r.key s).2.2)) ∨
    (∃ out, r.fresh = .ok out ∧
      r.serve cache s =
        ({ hit := false, result := .ok out },
         (cache.put r.cancelled r.key (.ofOutput out)
           (cache.get r.cancelled r.key s).2.2).2.2)) := by
  have key : Cache.key r.compiler.fingerprint r.document = r.key := rfl
  unfold serve isFound
  -- a lookup that fails goes on like one that finds nothing, with a remark
  simp only [Compiler.compile, Compiler.compileCached, key]
  rcases cache.get r.cancelled r.key s with ⟨found, log, s₁⟩
  match found with
  | .ok (some e) => exact .inl ⟨e, rfl, rfl⟩
  | .ok none =>
    refine .inr ?_
    rcases compileAndStore_cases r cache log s₁ rfl with ⟨err, hf, h₁, h₂⟩ | ⟨out, hf, h₁, h₂⟩
    · exact .inl ⟨err, hf, by simp only [h₁, h₂]⟩
    · exact .inr ⟨out, hf, by simp only [h₁, h₂]⟩
  | .error e =>
    refine .inr ?_
    rcases compileAndStore_cases r cache (log ++ [Compiler.warning "cache lookup failed" e]) s₁ rfl
      with ⟨err, hf, h₁, h₂⟩ | ⟨out, hf, h₁, h₂⟩
    · exact .inl ⟨err, hf, by simp only [h₁, h₂]⟩
    · exact .inr ⟨out, hf, by simp only [h₁, h₂]⟩

/-! ## §3. What a hit stands for. -/

/-- Requests with the same key come to the same without a cache, as far as digests do not
    collide. -/
theorem fresh_of_key_eq {asked : List Request}
    (apart : Digest.NoCollision (asked.flatMap digested))
    (short : ∀ r ∈ asked, r.settings.essence.length < 2 ^ 64)
    {r r' : Request} (hr : r ∈ asked) (hr' : r' ∈ asked) (h : r.key = r'.key) :
    r.fresh = r'.fresh := by
  -- all that is digested for the two keys is among the messages that do not collide
  have within : ∀ {r : Request} {m : Bytes}, r ∈ asked → m ∈ r.digested →
      m ∈ asked.flatMap digested := fun hr hm => List.mem_flatMap.2 ⟨_, hr, hm⟩
  rw [key, key, fingerprint_eq, fingerprint_eq] at h
  obtain ⟨core, document⟩ := Settings.key_separates apart (short r hr) (short r' hr')
    (within hr (by simp [digested])) (within hr' (by simp [digested]))
    (within hr (by simp [digested])) (within hr' (by simp [digested])) h
  have compiler : r.compiler = r'.compiler := by
    have made : Compiler.ofSettings r.settings = Compiler.ofSettings r'.settings :=
      Settings.ofSettings_congr core
    rw [r.made, r'.made] at made
    exact Except.ok.inj made
  rw [fresh_eq, fresh_eq, compiler, document]

end Request

/-- The output of a compiled document, got back from a cache. -/
theorem Compiler.cached_of_same {c : Compiler} {document : Bytes} {out : Output} {e : Cache.Entry}
    (h : (c.compileDocument document).1 = .ok out) (same : e.Same (.ofOutput out)) :
    cached e = { out with stats := { out.stats with temps := 0 } } := by
  have figures : statsOf out.code out.locals = { out.stats with temps := 0 } := by
    unfold compileDocument at h
    split at h
    · cases h
    · exact Program.compile_statsOf h
  unfold cached
  rw [same.source, same.code, same.locals, ← figures]
  rfl

/-! ## §4. Runs. -/

/-- A cache while requests are served: compilers brought it into its state, and what they gave it
    under a key is what one of the requests with that key comes to without a cache. -/
structure Cache.Sound (cache : Cache.Access σ) (start : σ) (asked : List Request)
    (given : List (String × Cache.Entry)) (s : σ) : Prop where
  reaches : cache.Reaches start given s
  compiled : ∀ {key e}, (key, e) ∈ given →
    ∃ r ∈ asked, r.key = key ∧ ∃ out, r.fresh = .ok out ∧ e = .ofOutput out

section Serving

variable {cache : Cache.Access σ} {start : σ} {asked : List Request}

/-- Serving a request gives the right answer and keeps the cache sound. -/
theorem Cache.Sound.serve (faithful : cache.Faithful start)
    (apart : Digest.NoCollision (asked.flatMap Request.digested))
    (short : ∀ r ∈ asked, r.settings.essence.length < 2 ^ 64)
    {given : List (String × Cache.Entry)} {s : σ} (sound : Cache.Sound cache start asked given s)
    {r : Request} (hr : r ∈ asked) :
    (r.serve cache s).1.AgreesWith r.fresh ∧
      ∃ given', Cache.Sound cache start asked given' (r.serve cache s).2 := by
  have looked : Cache.Sound cache start asked given (cache.get r.cancelled r.key s).2.2 :=
    ⟨sound.reaches.get r.cancelled r.key, sound.compiled⟩
  rcases r.serve_cases cache s with ⟨e, found, h⟩ | ⟨err, hf, h⟩ | ⟨out, hf, h⟩
  · -- what was found was given under the key of a request that comes to the same
    obtain ⟨e', given_mem, same⟩ := faithful sound.reaches found
    obtain ⟨r', hr', key, out, hf, rfl⟩ := sound.compiled given_mem
    rw [h]
    refine ⟨⟨out, ?_, ?_⟩, given, looked⟩
    · rw [← hf, Request.fresh_of_key_eq apart short hr hr' key.symm]
    · exact congrArg Except.ok (Compiler.cached_of_same hf same)
  · rw [h]
    exact ⟨hf.symm, given, looked⟩
  · rw [h]
    refine ⟨hf.symm, (r.key, .ofOutput out) :: given, looked.reaches.put r.cancelled r.key hf, ?_⟩
    intro key e mem
    -- the entry is new, or was given before
    rcases List.mem_cons.1 mem with same | mem
    · cases same
      exact ⟨r, hr, rfl, out, hf, rfl⟩
    · exact sound.compiled mem

/-- All requests of a run get the right answer from a sound cache. -/
theorem Cache.Sound.serveAll (faithful : cache.Faithful start)
    (apart : Digest.NoCollision (asked.flatMap Request.digested))
    (short : ∀ r ∈ asked, r.settings.essence.length < 2 ^ 64)
    {given : List (String × Cache.Entry)} {s : σ} (sound : Cache.Sound cache start asked given s)
    {rest : List Request} (hrest : ∀ r ∈ rest, r ∈ asked) :
    List.Forall₂ (fun r (a : Answer) => a.AgreesWith r.fresh) rest
      (Request.serveAll cache rest s) := by
  induction rest generalizing given s with
  | nil => exact .nil
  | cons r rest ih =>
    obtain ⟨agrees, given', sound'⟩ := sound.serve faithful apart short (hrest r (by simp))
    exact .cons agrees (ih sound' (fun r' mem => hrest r' (List.mem_cons_of_mem r mem)))

end Serving

/-- A faithful cache that compilers share changes no answer, apart from the number of temps in one
    that it had, if no two of the messages digested for keys collide.  Settings are as a machine
    can hold them: no length in their bytes needs more than eight. -/
theorem shared_cache_transparent (cache : Cache.Access σ) (start : σ)
    (faithful : cache.Faithful start) (requests : List Request)
    (apart : Digest.NoCollision (requests.flatMap Request.digested))
    (short : ∀ r ∈ requests, r.settings.essence.length < 2 ^ 64) :
    List.Forall₂ (fun r (a : Answer) => a.AgreesWith r.fresh) requests
      (Request.serveAll cache requests start) := by
  have sound : Cache.Sound cache start requests [] start := by
    refine ⟨.start, ?_⟩
    intro key e mem
    cases mem
  exact sound.serveAll faithful apart short (fun r mem => mem)

/-- A cache that keeps everything, except that cancelled requests fail. -/
def Cache.memory : Cache.Access (List (String × Cache.Entry)) where
  get cancelled key s := (if cancelled then .error .external else .ok (s.lookup key), [], s)
  put cancelled key e s :=
    if cancelled then (.error .external, [], s) else (.ok (), [], (key, e) :: s)

/-- All that is in memory was given. -/
theorem Cache.memory_subset {given s : List (String × Cache.Entry)}
    (h : Cache.memory.Reaches [] given s) : s ⊆ given := by
  induction h with
  | start => exact List.Subset.refl []
  | get cancelled key _ ih => exact ih
  | put cancelled key _ _ ih =>
    cases cancelled with
    | true => exact List.Subset.trans ih (List.subset_cons_self _ _)
    | false => exact List.cons_subset_cons _ ih

theorem Cache.memory_faithful : Cache.memory.Faithful [] := by
  intro given s reaches cancelled key e found
  cases cancelled with
  | true => cases found
  | false =>
    obtain ⟨before, behind, rfl, -⟩ := List.lookup_eq_some_iff.1 (Except.ok.inj found)
    have stored : (key, e) ∈ before ++ (key, e) :: behind := by simp
    exact ⟨e, Cache.memory_subset reaches stored, rfl, rfl, rfl⟩

/-- A request to the compiler of settings that differ from none only in the container. -/
def Request.inContainer (container : String) (cancelled : Bool) : Request where
  settings := { container }
  compiler := _
  made := rfl
  document := Text.bytesOf "[toplevel, []]"
  cancelled

/-- Two compilers that differ in the container of local names, asked for the same document; the
    second time around the requests are one for memory and one that is cancelled. -/
theorem shared_cache_transparent_of_containers :
    let requests := [Request.inContainer "" false, Request.inContainer "$vars" false,
      Request.inContainer "" false, Request.inContainer "$vars" true]
    Digest.NoCollision (requests.flatMap Request.digested) ∧
    List.Forall₂ (fun r (a : Answer) => a.AgreesWith r.fresh) requests
      (Request.serveAll Cache.memory requests []) := by
  intro requests
  have apart : Digest.NoCollision (requests.flatMap Request.digested) := by
    simp only [requests, List.flatMap_cons, List.flatMap_nil, Request.digested,
      Request.inContainer, Settings.fingerprint, Settings.fingerprintBy,
      Settings.essence_container]
    decide +kernel
  refine ⟨apart, shared_cache_transparent Cache.memory [] Cache.memory_faithful requests apart ?_⟩
  simp only [requests, List.forall_mem_cons, Request.inContainer, Settings.essence_container]
  decide +kernel

end Resumable
