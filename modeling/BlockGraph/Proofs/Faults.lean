import BlockGraph.Proofs.Assembly.Finished
import BlockGraph.Proofs.Bytecode.Operands
import BlockGraph.Proofs.Layout.Flow
import BlockGraph.Proofs.Layout.Malformed

/-!
# How a method may be turned down

Building the graph of a method fails if the method cannot be laid out, if its exception table asks for the
handler without code, if a call leads to the beginning, or with a bailout; nothing else comes out, and
whatever the graph in the making holds is in range (`build_faults`). No index at which a survey looks is
past the end of the code (`layout_inBounds`), although marks and numbers would answer there too.
-/

namespace BlockGraph

open Assembly

variable {m : Method} {pool : ConstantPool} {o : Options} {g : Graph} {s t : Assembly} {fault : Fault}

/-- The assemblies that making the graph of a method passes through. -/
inductive Method.Reaches (m : Method) (pool : ConstantPool) (o : Options) : Assembly → Prop where
  | prepared {s : Assembly} : prepare m pool o {} = .ok () s → m.Reaches pool o s
  | step {s t : Assembly} {done : Bool} :
    m.Reaches pool o s → Assembly.step m o s = .ok done t → m.Reaches pool o t

theorem Method.Reaches.inv (h : m.Reaches pool o s) :
    ∃ st home path, st.method = m ∧ Inv st home path s := by
  induction h with
  | prepared hprepare =>
    obtain ⟨st, home, hst, hinv, -⟩ := prepare_spec.of_ok hprepare
    exact ⟨st, home, [], hst, hinv⟩
  | @step s t done _ hstep ih =>
    obtain ⟨st, home, path, hst, hinv⟩ := ih
    have hnext := hinv.step.of_ok hstep
    cases done with
    | false =>
      obtain ⟨home', path', hinv'⟩ := hnext
      exact ⟨st, home', path', hst, hinv'⟩
    | true =>
      obtain ⟨home', hinv', -, -⟩ := hnext
      exact ⟨st, home', [], hst, hinv'⟩

/-- The assembly after some steps, if none of them fails. -/
def Method.after (m : Method) (pool : ConstantPool) (o : Options) : Nat → Option Assembly
  | 0 =>
    match prepare m pool o {} with
    | .ok _ s => some s
    | .error _ _ => none
  | n + 1 => (m.after pool o n).bind fun s =>
    match Assembly.step m o s with
    | .ok _ t => some t
    | .error _ _ => none

theorem Method.prepare_of_after (h : m.after pool o 0 = some s) : prepare m pool o {} = .ok () s := by
  unfold Method.after at h
  cases hprepare : prepare m pool o {} with
  | ok a t => rw [hprepare] at h; cases h; rfl
  | error fault t => rw [hprepare] at h; cases h

theorem Method.step_of_after {k : Nat} (h : m.after pool o (k + 1) = some t) :
    ∃ s done, m.after pool o k = some s ∧ Assembly.step m o s = .ok done t := by
  unfold Method.after at h
  obtain ⟨s, hs, h⟩ := Option.bind_eq_some_iff.1 h
  cases hstep : Assembly.step m o s with
  | ok done t => rw [hstep] at h; cases h; exact ⟨s, done, hs, hstep⟩
  | error fault t => rw [hstep] at h; cases h

theorem Method.reaches_of_after : ∀ {k : Nat} {s : Assembly}, m.after pool o k = some s →
    m.Reaches pool o s
  | 0, _, h => .prepared (prepare_of_after h)
  | _ + 1, _, h => by
    obtain ⟨s, done, hs, hstep⟩ := step_of_after h
    exact .step (reaches_of_after hs) hstep

/-- A method that cannot be laid out has no graph. -/
theorem build_of_layout_error (h : layout m.code m.handlers = .error fault) :
    build m pool o = .error fault := by
  have hfails : Yields (assemble m pool o) {} (fun _ _ => False) (fun fault' _ => fault' = fault) := by
    unfold assemble prepare
    rw [yields_bind, yields_bind, yields_modify, yields_bind, yields_modifyGet, yields_bind,
      yields_ofExcept, h]
  obtain ⟨fault', -, hbuild, rfl⟩ := exists_build_error hfails
  exact hbuild

theorem layout_eq (st : Setting) :
    layout st.method.code st.method.handlers = .ok st.survey.layout := by
  rw [layout, st.surveyed]; rfl

/-- A surveyed method is refused with a bailout, or because a call of it leads to the beginning. -/
theorem Setting.Refuses.cases {st : Setting} (h : st.Refuses fault) :
    (∃ why, fault = .bailout why) ∨ fault = .badEntry 0 ∧
      ∃ insns, Insn.sweep st.method.code = .ok insns ∧ ∃ i ∈ insns, i.flow = .jsr ∧ 0 ∈ i.targets := by
  cases h with
  | bailout why => exact .inl ⟨why, rfl⟩
  | badEntry hi hf ht => exact .inr ⟨rfl, _, Survey.sweep_eq st.surveyed, _, hi, hf, ht⟩

/-- A method with a surveyed layout may only ask for the handler without code in vain. -/
theorem Method.Fails.cases (h : m.Fails fault) :
    layout m.code m.handlers = .error fault ∨
      (∃ starts, layout m.code m.handlers = .ok starts) ∧
        (fault = .noBlock Site.unlockIndex ∧ (∃ x ∈ m.handlers, x.isUnlock = true) ∨
          (∀ x ∈ m.handlers, x.isUnlock = false) ∧ ((∃ why, fault = .bailout why) ∨
            fault = .badEntry 0 ∧ ∃ insns, Insn.sweep m.code = .ok insns ∧
              ∃ i ∈ insns, i.flow = .jsr ∧ 0 ∈ i.targets)) := by
  rcases h with (hlayout | ⟨hlayout, hunlock, hfault⟩) | ⟨st, rfl, hrefuses⟩
  · exact .inl hlayout
  · exact .inr ⟨hlayout, .inl ⟨hfault, hunlock⟩⟩
  · exact .inr ⟨⟨_, layout_eq st⟩, .inr ⟨st.coded, hrefuses.cases⟩⟩

/-- A method that asks for the handler without code is turned down for that. -/
theorem build_of_isUnlock {starts : List Start} (h : layout m.code m.handlers = .ok starts)
    {x : Handler} (hx : x ∈ m.handlers) (hunlock : x.isUnlock = true) :
    build m pool o = .error (.noBlock Site.unlockIndex) := by
  cases hbuild : build m pool o with
  | ok g =>
    obtain ⟨st, _, rfl, _⟩ := finished_of_build hbuild
    rw [st.coded x hx] at hunlock; cases hunlock
  | error fault =>
    rcases (fails_of_build hbuild).cases with hlayout | ⟨-, ⟨rfl, -⟩ | ⟨hcoded, -⟩⟩
    · rw [h] at hlayout; cases hlayout
    · rfl
    · rw [hcoded x hx] at hunlock; cases hunlock

/-- **Which faults come out.** A graph is refused as malformed just when the method cannot be laid out,
for want of a block of the handler without code just when it can be and the exception table has such a
handler, and otherwise with a bailout, or because a call leads to the beginning. On the way every index
stays in range, and a switch never lacks its default case. -/
theorem build_faults (m : Method) (pool : ConstantPool) (o : Options) :
    (∀ fault, build m pool o = .error fault → fault.IsMalformed ∨ fault = .noBlock Site.unlockIndex ∨
      fault = .badEntry 0 ∨ ∃ why, fault = .bailout why) ∧
    (∀ fault, build m pool o = .error fault ∧ fault.IsMalformed ↔
      layout m.code m.handlers = .error fault) ∧
    (build m pool o = .error (.noBlock Site.unlockIndex) ↔
      (∃ starts, layout m.code m.handlers = .ok starts) ∧ ∃ x ∈ m.handlers, x.isUnlock = true) ∧
    (build m pool o = .error (.badEntry 0) →
      ∃ insns, Insn.sweep m.code = .ok insns ∧ ∃ i ∈ insns, i.flow = .jsr ∧ 0 ∈ i.targets) ∧
    (∀ s, m.Reaches pool o s → s.Within ∧ ∀ c ∈ s.chain, c.cursor.opcode.flow = .switch →
      ∀ ts, c.cursor.targets = .ok ts → ts ≠ []) ∧
    (∀ fault s, (assemble m pool o).run {} = .error fault s → s.Within) ∧
    ∀ g, build m pool o = .ok g → g.InRange := by
  refine ⟨fun fault h => ?_, fun fault => ⟨?_, fun h => ?_⟩, ⟨fun h => ?_, ?_⟩,
    fun h => ?_, fun s h => ?_, fun fault s h => (assemble_spec.of_error h).2, fun g h => ?_⟩
  · rcases (fails_of_build h).cases with hlayout | ⟨-, ⟨rfl, -⟩ | ⟨-, hbailout | ⟨rfl, -⟩⟩⟩
    · exact .inl (decodes_layout _ _ _ hlayout)
    · exact .inr (.inl rfl)
    · exact .inr (.inr (.inr hbailout))
    · exact .inr (.inr (.inl rfl))
  · rintro ⟨h, bci, what, rfl⟩
    rcases (fails_of_build h).cases with hlayout | ⟨-, ⟨h, -⟩ | ⟨-, ⟨_, h⟩ | ⟨h, -⟩⟩⟩
    · exact hlayout
    all_goals cases h
  · exact ⟨build_of_layout_error h, decodes_layout _ _ _ h⟩
  · rcases (fails_of_build h).cases with hlayout | ⟨hlayout, ⟨-, hunlock⟩ | ⟨-, ⟨_, h⟩ | ⟨h, -⟩⟩⟩
    · obtain ⟨_, _, h⟩ := decodes_layout _ _ _ hlayout
      cases h
    · exact ⟨hlayout, hunlock⟩
    all_goals cases h
  · rintro ⟨⟨starts, hlayout⟩, x, hx, hunlock⟩
    exact build_of_isUnlock hlayout hx hunlock
  · rcases (fails_of_build h).cases with hlayout | ⟨-, ⟨h, -⟩ | ⟨-, ⟨_, h⟩ | ⟨-, hcall⟩⟩⟩
    · obtain ⟨_, _, h⟩ := decodes_layout _ _ _ hlayout
      cases h
    · cases h
    · cases h
    · exact hcall
  · obtain ⟨_, _, _, -, hinv⟩ := h.inv
    exact ⟨hinv.base.within, fun c _ hf ts ht => c.cursor.targets_ne_nil hf ht⟩
  · obtain ⟨_, _, -, hfinished⟩ := finished_of_build h
    exact hfinished.range

/-! ## Indices

Marks, numbers and lists of successors ignore an index past the end of the code. So nothing above depends
on what they would hold there: the indices that a survey marks, numbers or looks up are all in the code.
-/

namespace Survey

variable {code : Array UInt8} {handlers : List Handler} {v : Survey}

/-- The search of a survey comes to a node: a root, or a successor of a node to which it comes. -/
inductive Searches (v : Survey) : Nat → Prop where
  | root {t : Nat} : t ∈ 0 :: v.handlerEntries → v.Searches t
  | successor {s t : Nat} : v.Searches s → t ∈ Numbering.successorsIn (adjacency v.size v.edges) s →
    v.Searches t

/-- Every index at which a survey looks is an index of its code. -/
structure InBounds (v : Survey) : Prop where
  insns : ∀ i ∈ v.insns, i.bci < v.size ∧ ∀ t ∈ i.targets, t < v.size
  /-- What is looked up behind an instruction. -/
  falls : ∀ i ∈ v.insns, i.fallsThrough = true → i.next < v.size
  starts : ∀ t ∈ v.startIndices, t < v.size
  handlers : ∀ t ∈ v.handlerEntries, t < v.size
  subroutines : ∀ t ∈ v.subroutineEntries, t < v.size
  backward : ∀ t ∈ v.backwardTargets, t < v.size
  /-- Successors are listed at the one end and looked up at the other. -/
  edges : ∀ e ∈ v.edges, e.1 < v.size ∧ e.2 < v.size
  searched : ∀ t, v.Searches t → t < v.size

theorem Searches.mem_starts (h : ofMethod code handlers = .ok v) {t : Nat} (ht : v.Searches t) :
    t ∈ v.starts := by
  induction ht with
  | root hroot => exact root_mem_starts h hroot
  | successor _ hsuccessor _ =>
    exact (edge_mem_starts h (((Numbering.adjacency_spec v.size v.edges).2.1 _ _).1 hsuccessor).1).2

theorem inBounds (h : ofMethod code handlers = .ok v) : v.InBounds := by
  have hstart : ∀ {t}, t ∈ v.starts → t < v.size := fun ht => size_eq h ▸ ((Survey.mem_starts h).1 ht).1
  have htarget : ∀ i ∈ v.insns, ∀ t ∈ i.targets, t < v.size :=
    fun i hi t ht => hstart (target_mem_starts h hi ht)
  have hhandler : ∀ t ∈ v.handlerEntries, t < v.size :=
    fun t ht => hstart (root_mem_starts h (List.mem_cons_of_mem _ ht))
  have hedge : ∀ e ∈ v.edges, e.1 < v.size ∧ e.2 < v.size := fun e he =>
    (edge_mem_starts h he).imp hstart hstart
  refine ⟨fun i hi => ⟨size_eq h ▸ bci_lt h hi, htarget i hi⟩, fun i hi hf => size_eq h ▸ next_lt h hi hf,
    fun t ht => ?starts, hhandler, fun t ht => ?subroutines, fun t ht => ?backward, hedge,
    fun t ht => hstart (ht.mem_starts h)⟩
  case starts =>
    rcases List.mem_append.1 ht with ht | ht
    · rcases List.mem_cons.1 ht with rfl | ht
      · exact hstart (zero_mem_starts h)
      · obtain ⟨i, hi, ht⟩ := List.mem_flatMap.1 ht
        rcases List.mem_append.1 ht with ht | ht
        · exact htarget i hi t ht
        · split at ht
          · rename_i hends
            simp only [Bool.and_eq_true, decide_eq_true_eq] at hends
            cases List.mem_singleton.1 ht
            exact hends.2
          · cases ht
    · exact hhandler t ht
  case subroutines =>
    obtain ⟨i, hi, ht⟩ := List.mem_flatMap.1 ht
    split at ht
    · exact htarget i hi t ht
    · cases ht
  case backward =>
    obtain ⟨i, hi, ht⟩ := List.mem_flatMap.1 ht
    exact htarget i hi t (List.mem_of_mem_filter ht)

end Survey

/-- **No index leads out of the code**: neither those of an instruction that is read, even if the code is
refused later on, nor those that are looked up when the method has a layout. -/
theorem layout_inBounds (code : Array UInt8) (handlers : List Handler) :
    (∀ bci op c ts, Cursor.moveTo bci (.ofCode code) = .ok op c → c.targets = .ok ts →
      bci < code.size ∧ ∀ t ∈ ts, t < code.size) ∧
    ∀ v, Survey.ofMethod code handlers = .ok v → v.size = code.size ∧ v.InBounds := by
  refine ⟨fun bci op c ts hmove hts => ?_, fun v hv => ⟨Survey.size_eq hv, Survey.inBounds hv⟩⟩
  obtain ⟨hcode, -, -, hlt, hle⟩ := Cursor.moveTo_progress hmove
  have htargets := Cursor.targets_lt (Cursor.fits_of_moveTo hmove) hts
  rw [hcode] at htargets
  exact ⟨Nat.lt_of_lt_of_le hlt hle, htargets⟩

end BlockGraph
