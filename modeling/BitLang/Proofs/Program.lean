/-
# The result store makes no difference

A run that finds the result of its program in the store prints what it would have
printed without one.  The store is trusted as long as each of its rows was put there by a
run: it then holds the bytes of the value of some program, under the key of that
program's tree and the limit it was run with.  Every run keeps the store trusted.

Two programs share a key if their trees agree up to spans, and only then unless
fingerprints collide.  Their values agree up to spans, and are the same if they can be
stored at all, because a value that holds a function is never stored.
-/

import BitLang.Program
import BitLang.Proofs.Eval.Soundness
import BitLang.Proofs.Eval.Spans
import BitLang.Proofs.Expr.Serialization
import BitLang.Proofs.Value.Wire

namespace BitLang

/-! ## Keys and results -/

/-- A key tells the fingerprint and the limit. -/
theorem Runner.key_inj {limit limit' : Int} {e e' : Expr} (h : key limit e = key limit' e') :
    e.fingerprint = e'.fingerprint ∧ limit = limit' := by
  have htext := congrArg String.toList (utf8_injective h)
  simp only [String.toList_append, List.append_assoc] at htext
  obtain ⟨hhex, hlimit⟩ := append_mark_inj (Hex.slash_not_mem_encode _)
    (Hex.slash_not_mem_encode _) htext
  exact ⟨Hex.encode_injective (String.toList_inj.mp hhex),
    repr_int_injective (String.toList_inj.mp hlimit)⟩

namespace Expr

variable {limit : Int} {e e' : Expr} {v : Value}

theorem eval_of_result (h : e.result limit .empty = .ok v) :
    ∃ tally, e.eval limit .empty = .value v tally := by
  unfold result at h
  split at h
  · next w tally heval =>
      cases h
      exact ⟨tally, heval⟩
  · cases h
  · cases h

theorem wellFormed_of_result (he : e.Canonical) (h : e.result limit .empty = .ok v) :
    v.WellFormed := by
  obtain ⟨tally, heval⟩ := eval_of_result h
  have hadmits := admits_eval Bindings.kept_wellFormed he
    (Bindings.sound_empty Bindings.kept_wellFormed _) limit
  rw [heval] at hadmits
  exact hadmits

/-- Trees that agree up to spans have the same result, if it can be stored. -/
theorem result_eq_of_eraseSpans_eq {bytes : Bytes} (he : e.eraseSpans = e'.eraseSpans)
    (h : e'.result limit .empty = .ok v) (hbytes : v.marshal? = some bytes) :
    e.result limit .empty = .ok v := by
  obtain ⟨tally, heval'⟩ := eval_of_result h
  have herased : (e.eval limit .empty).eraseSpans = .value v.eraseSpans tally := by
    have hsame := eval_eraseSpans limit .empty e
    rw [he, eval_eraseSpans, heval'] at hsame
    exact hsame.symm
  unfold result
  cases heval : e.eval limit .empty with
  | value w later =>
      rw [heval] at herased
      simp only [Outcome.eraseSpans, Outcome.value.injEq] at herased
      rw [Value.eq_of_eraseSpans_eq hbytes herased.1]
  | failure error later =>
      rw [heval] at herased
      cases herased
  | outOfFuel =>
      rw [heval] at herased
      cases herased

end Expr

/-! ## Trusted stores -/

/-- No two of the programs have trees with the same fingerprint and different
serializations. -/
def Unambiguous (sources : List Bytes) : Prop :=
  ∀ source ∈ sources, ∀ source' ∈ sources, ∀ e e', Expr.parse source = .ok e →
    Expr.parse source' = .ok e' → e.fingerprint = e'.fingerprint → e.serialize = e'.serialize

/-- The trees of the programs have literals and sets of serializable size. -/
def AllFit (sources : List Bytes) : Prop :=
  ∀ source ∈ sources, ∀ e, Expr.parse source = .ok e → e.Fits

/-- Every row of the store holds the value of one of the programs under its key. -/
def ResultStore.Trusted (sources : List Bytes) (s : ResultStore) : Prop :=
  ∀ row ∈ s.rows, ∃ source ∈ sources, ∃ e limit v, Expr.parse source = .ok e ∧
    row.1 = Runner.key limit e ∧ e.result limit .empty = .ok v ∧ v.marshal? = some row.2

namespace ResultStore

variable {sources : List Bytes} {s : ResultStore}

theorem trusted_fresh (sources : List Bytes) : fresh.Trusted sources :=
  fun _ hmem => nomatch hmem

theorem exists_of_get {key : Bytes} {v : Value} (h : s.get key = .ok v) :
    ∃ bytes, (key, bytes) ∈ s.rows ∧ Value.unmarshal bytes = .ok v := by
  unfold get at h
  split at h
  · split at h
    · cases h
    · next bytes hlookup =>
        obtain ⟨before, after, hrows, -⟩ := List.lookup_eq_some_iff.mp hlookup
        refine ⟨bytes, ?_, ?_⟩
        · rw [hrows]
          exact List.mem_append_right before (List.mem_cons_self ..)
        · cases hvalue : Value.unmarshal bytes with
          | error error =>
              rw [hvalue] at h
              cases h
          | ok w =>
              rw [hvalue] at h
              cases h
              rfl
  · cases h

/-- A trusted store has the value of the program whose key is asked for. -/
theorem Trusted.result_of_get (hs : s.Trusted sources) (hunambiguous : Unambiguous sources)
    (hfit : AllFit sources) {source : Bytes} (hsource : source ∈ sources) {e : Expr}
    (hparse : Expr.parse source = .ok e) {limit : Int} {v : Value}
    (h : s.get (Runner.key limit e) = .ok v) : e.result limit .empty = .ok v := by
  obtain ⟨bytes, hmem, hread⟩ := exists_of_get h
  obtain ⟨source', hsource', e', limit', w, hparse', hkey, hresult, hbytes⟩ := hs _ hmem
  obtain ⟨hfingerprint, rfl⟩ := Runner.key_inj hkey
  have hserialize := hunambiguous source hsource source' hsource' e e' hparse hparse' hfingerprint
  have he := Expr.canonical_of_parse hparse
  have he' := Expr.canonical_of_parse hparse'
  have herased := Expr.eraseSpans_eq_of_serialize_eq he he' (hfit source hsource e hparse)
    (hfit source' hsource' e' hparse') hserialize
  obtain rfl := Value.eq_of_unmarshal_marshal (Expr.wellFormed_of_result he' hresult) hbytes hread
  exact Expr.result_eq_of_eraseSpans_eq herased hresult hbytes

/-- Putting the value of a program under its key keeps the store trusted, also if the
value cannot be stored or the database refuses. -/
theorem Trusted.put (hs : s.Trusted sources) {source : Bytes} (hsource : source ∈ sources)
    {e : Expr} (hparse : Expr.parse source = .ok e) {limit : Int} {v : Value}
    (h : e.result limit .empty = .ok v) :
    ((s.put (Runner.key limit e) v).toOption.getD s).Trusted sources := by
  unfold ResultStore.put
  split
  · exact hs
  · next bytes hbytes =>
      unfold putBytes
      split
      · refine List.forall_mem_cons.mpr ⟨?_, fun row hmem => hs row (List.mem_filter.mp hmem).1⟩
        exact ⟨source, hsource, e, limit, v, hparse, rfl, h, hbytes⟩
      · exact hs

end ResultStore

/-! ## Runs -/

/-- What a run shows to the outside: what it wrote and why it ended early. -/
def Run.shown (run : Run) : Bytes × Option RunError := (run.output, run.error)

namespace Runner

variable {sources : List Bytes} {s : ResultStore}

/-- With a trusted store, a program has the value that it has without one, and the store
stays trusted. -/
theorem evaluate_of_trusted (r : Runner) (hs : s.Trusted sources)
    (hunambiguous : Unambiguous sources) (hfit : AllFit sources) {source : Bytes}
    (hsource : source ∈ sources) {e : Expr} (hparse : Expr.parse source = .ok e) :
    ∃ s', r.evaluate (some s) e = (e.result r.limit .empty, some s') ∧ s'.Trusted sources := by
  unfold evaluate
  simp only
  cases hget : s.get (key r.limit e) with
  | ok v =>
      have hresult := hs.result_of_get hunambiguous hfit hsource hparse hget
      exact ⟨s, by rw [hresult], hs⟩
  | error error =>
      cases hresult : e.result r.limit .empty with
      | error error => exact ⟨s, rfl, hs⟩
      | ok v => exact ⟨_, rfl, hs.put hsource hparse hresult⟩

/-- One run with a trusted store shows what it shows without one, and leaves the store
trusted. -/
theorem run_of_trusted (r : Runner) (hs : s.Trusted sources)
    (hunambiguous : Unambiguous sources) (hfit : AllFit sources) {source : Bytes}
    (hsource : source ∈ sources) :
    ∃ s', (r.run (some s) source).store = some s' ∧ s'.Trusted sources ∧
      (r.run (some s) source).shown = (r.run none source).shown := by
  unfold run
  split
  · exact ⟨s, rfl, hs, rfl⟩
  · cases hparse : Expr.parse source with
    | error error => exact ⟨s, rfl, hs, rfl⟩
    | ok e =>
        obtain ⟨s', hevaluate, hs'⟩ := r.evaluate_of_trusted hs hunambiguous hfit hsource hparse
        have hnone : r.evaluate none e = (e.result r.limit .empty, none) := rfl
        simp only [hevaluate, hnone]
        cases e.result r.limit .empty with
        | error error => exact ⟨s', rfl, hs', rfl⟩
        | ok v =>
            simp only
            cases v.print r.format with
            | error error => exact ⟨s', rfl, hs', rfl⟩
            | ok printed => exact ⟨s', rfl, hs', rfl⟩

/-- Runs programs one after another, each with the store that the one before has left. -/
def runAll : (store : Option ResultStore) → List (Runner × Bytes) → List Run
  | _, [] => []
  | store, (r, source) :: rest =>
    let run := r.run store source
    run :: runAll run.store rest

theorem runAll_of_trusted (hs : s.Trusted sources) (hunambiguous : Unambiguous sources)
    (hfit : AllFit sources) {calls : List (Runner × Bytes)}
    (hcalls : ∀ call ∈ calls, call.2 ∈ sources) :
    (runAll (some s) calls).map Run.shown =
      calls.map fun (r, source) => (r.run none source).shown := by
  induction calls generalizing s with
  | nil => rfl
  | cons call rest ih =>
      rcases call with ⟨r, source⟩
      obtain ⟨hsource, hrest⟩ := List.forall_mem_cons.mp hcalls
      obtain ⟨s', hstore, hs', hshown⟩ := r.run_of_trusted hs hunambiguous hfit hsource
      rw [runAll, List.map_cons, List.map_cons, hshown]
      simp only [hstore, ih hs' hrest]

/-- Whatever programs are run one after another, with whatever limits and formats, a
store that starts empty and is written by these runs alone makes no difference to what
any of them shows. -/
theorem shown_runAll_fresh (calls : List (Runner × Bytes))
    (hunambiguous : Unambiguous (calls.map Prod.snd)) (hfit : AllFit (calls.map Prod.snd)) :
    (runAll (some .fresh) calls).map Run.shown =
      calls.map fun (r, source) => (r.run none source).shown :=
  runAll_of_trusted (ResultStore.trusted_fresh _) hunambiguous hfit
    fun _ hmem => List.mem_map_of_mem hmem

/-- A single set bit in two layouts, run twice under one limit and once under another that
cuts it off, and then a clear bit. -/
def layoutCalls : List (Runner × Bytes) :=
  [(⟨100, utf8 "hex", false, false⟩, utf8 "\x601\x60"),
    (⟨100, utf8 "cbor", false, true⟩, utf8 "# one # \x601\x60"),
    (⟨-1, [], false, false⟩, utf8 "\x601\x60"),
    (⟨100, [], false, false⟩, utf8 "\x600\x60")]

/-- The second run finds the result of the first, and the others find nothing. -/
theorem shown_runAll_layoutCalls :
    Unambiguous (layoutCalls.map Prod.snd) ∧ AllFit (layoutCalls.map Prod.snd) ∧
      (runAll (some .fresh) layoutCalls).map Run.shown =
        layoutCalls.map fun (r, source) => (r.run none source).shown := by
  have hparse : ∀ source ∈ layoutCalls.map Prod.snd, ∃ span,
      Expr.parse source = .ok (.literal span ⟨1, [0x80]⟩) ∨
        Expr.parse source = .ok (.literal span ⟨1, [0x00]⟩) := by
    simp only [layoutCalls, List.map_cons, List.map_nil, List.forall_mem_cons]
    refine ⟨⟨⟨⟨0, 1, 1⟩, ⟨3, 1, 4⟩⟩, .inl rfl⟩, ⟨⟨⟨8, 1, 9⟩, ⟨11, 1, 12⟩⟩, .inl rfl⟩,
      ⟨⟨⟨0, 1, 1⟩, ⟨3, 1, 4⟩⟩, .inl rfl⟩, ⟨⟨⟨0, 1, 1⟩, ⟨3, 1, 4⟩⟩, .inr rfl⟩,
      fun _ hmem => nomatch hmem⟩
  have hdistinct :
      Sha256.digest [1, 2, 0, 0, 0, 1, 0x80] ≠ Sha256.digest [1, 2, 0, 0, 0, 1, 0x00] := by
    decide +kernel
  have hunambiguous : Unambiguous (layoutCalls.map Prod.snd) := by
    intro source hsource source' hsource' e e' he he' hfingerprint
    obtain ⟨span, hspan | hspan⟩ := hparse source hsource <;>
      obtain ⟨span', hspan' | hspan'⟩ := hparse source' hsource' <;>
      cases he.symm.trans hspan <;> cases he'.symm.trans hspan'
    · rfl
    · exact absurd hfingerprint hdistinct
    · exact absurd hfingerprint.symm hdistinct
    · rfl
  have hfit : AllFit (layoutCalls.map Prod.snd) := by
    intro source hsource e he
    obtain ⟨span, hspan | hspan⟩ := hparse source hsource <;> cases he.symm.trans hspan
    · exact (by decide : 1 < 2 ^ 32)
    · exact (by decide : 1 < 2 ^ 32)
  exact ⟨hunambiguous, hfit, shown_runAll_fresh layoutCalls hunambiguous hfit⟩

end Runner

end BitLang
