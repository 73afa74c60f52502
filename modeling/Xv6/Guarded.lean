import Xv6.Threads

/-!
**A state that one lock guards.**

Threads of any number change the state with the lock held only, and every change keeps an
invariant. Inside a critical section a thread then finds the state as it left it, so that its
code can be reasoned about as if it ran alone (`Stays`); `invariant_of_reachable` brings the
results back to the interleaved system.
-/

namespace Program

variable {P σ W L κ α β : Type}

/-! ### Code that runs with the lock held -/

/-- Every state the program goes through from `s` has `I`; it ends with `Q`, or panics with a
message in `E`. -/
def Stays (I : σ → Prop) (E : String → Prop) : Prog σ Empty Empty α → (α → σ → Prop) → σ → Prop
  | .ret a, Q, s => Q a s
  | .panic msg, _, _ => E msg
  | .step f k, Q, s => I (f s) ∧ Stays I E (k s) Q (f s)
  | .acquire w _ _, _, _ => w.elim
  | .release l _, _, _ => l.elim

section

variable {I : σ → Prop} {E : String → Prop} {Q : α → σ → Prop} {s : σ} {m : Prog σ Empty Empty α}

theorem stays_bind {g : α → Prog σ Empty Empty β} {Q : β → σ → Prop} :
    Stays I E (m >>= g) Q s ↔ Stays I E m (fun a => Stays I E (g a) Q) s := by
  induction m generalizing s with
  | ret | panic => exact Iff.rfl
  | step f k ih => exact and_congr_right fun _ => ih s
  | acquire w => exact w.elim
  | release l => exact l.elim

theorem stays_reads (hs : I s) {f : σ → α} (hQ : Q (f s) s) : Stays I E (reads f) Q s := ⟨hs, hQ⟩

theorem stays_modify {f : σ → σ} {Q : Unit → σ → Prop} (hI : I (f s)) (hQ : Q () (f s)) :
    Stays I E (modify f) Q s := ⟨hI, hQ⟩

theorem stays_atomic {f : σ → Except String (α × σ)} {a : α} {s' : σ} (hf : f s = .ok (a, s'))
    (hI : I s') (hQ : Q a s') : Stays I E (atomic f) Q s := by
  simpa [atomic, Stays, hf] using ⟨hI, hQ⟩

theorem stays_error (hs : I s) {f : σ → Except String (α × σ)} {msg : String}
    (hf : f s = .error msg) (hE : E msg) : Stays I E (atomic f) Q s := by
  simpa [atomic, Stays, hf] using ⟨hs, hE⟩

theorem Stays.wp (h : Stays I E m Q s) : wp E m Q s := by
  induction m generalizing s with
  | ret | panic => exact h
  | step f k ih => exact ih s h.2
  | acquire w => exact w.elim
  | release l => exact l.elim

theorem Stays.exec_done (h : Stays I (fun _ => False) m Q s) :
    ∃ a s', exec m [] s = .done a s' ∧ Q a s' := Program.exec_done h.wp

end

/-! ### Threads around it -/

/-- With `l` held a thread finds the state as it was. -/
def guarded (P W κ : Type) (l : L) (I : σ → Prop) : Rely P σ Unit W L κ where
  inv s _ := I s
  frame _ held s _ s' _ := l ∈ held → s' = s
  ok _ _ _ _ _ _ _ := True
  idle _ _ _ := True
  refl _ _ _ _ _ := rfl
  trans h h' hl := (h' hl).trans (h hl)
  idle_frame _ _ := trivial

/-- `acquire(l); m; release(l)`. -/
def critical (w : W) (l : L) (m : Prog σ Empty Empty Unit) : Prog σ W L Unit := do
  acquire w l
  m.lift
  release l

variable [DecidableEq P] [DecidableEq L] {I : σ → Prop} {E : String → Prop} {l : L} {s : σ} {c : κ} {p : P}

omit [DecidableEq P] in
theorem safe_lift {held : List L} {Q : α → σ → Prop} (hl : l ∈ held) :
    ∀ {m : Prog σ Empty Empty α} {s : σ}, Stays I E m Q s →
      (guarded P W κ l I).Safe c p (m.lift : Prog σ W L α)
        (fun a held' s' _ => held' = held ∧ Q a s') held s () := by
  intro m
  induction m with
  | ret =>
    intro s h s' g' _ hframe
    rw [hframe hl]
    exact ⟨rfl, h⟩
  | panic => exact fun _ => trivial
  | step f k ih =>
    intro s h s' g' _ hframe
    obtain rfl := hframe hl
    refine ⟨(), ⟨h.1, fun q held' _ hdisj hl' => ?_⟩, ih s' h.2⟩
    exact absurd hl' (hdisj hl)
  | acquire w => exact w.elim
  | release l => exact l.elim

omit [DecidableEq P] in
/-- **A critical section** keeps what its code keeps. -/
theorem safe_critical {w : W} {m : Prog σ Empty Empty Unit} {g : Unit} (hs : I s)
    (hm : ∀ s, I s → Stays I E m (fun _ _ => True) s) :
    (guarded P W κ l I).Safe c p (critical w l m) ((guarded P W κ l I).Done p) [] s g := by
  apply Rely.Safe.bind (Q := fun _ held _ _ => held = [l]) ?_ hs ?_
  · refine Rely.safe_acquire fun s' g' _ _ => ⟨trivial, fun _ s3 g3 _ _ => rfl⟩
  rintro _ held s1 g1 hs1 rfl
  apply Rely.Safe.bind (safe_lift (List.mem_singleton_self l) (hm s1 hs1)) hs1
  rintro _ held s2 g2 _ ⟨rfl, -⟩
  refine Rely.safe_release (List.mem_singleton_self l) fun s' g' _ _ s3 g3 _ _ => ⟨?_, trivial⟩
  simp

/-- **What every critical section keeps, every run keeps.** -/
theorem invariant_of_reachable {w : W} {body : P → κ → Prog σ Empty Empty Unit}
    {may : σ → P → κ → Bool} {init : σ → Prop}
    {ok : Conf P σ W L κ → Act P κ → Prop} {x : Conf P σ W L κ} (hinit : ∀ s, init s → I s)
    (hbody : ∀ p c s, I s → Stays I E (body p c) (fun _ _ => True) s)
    (h : (threads init (fun p c => critical w l (body p c)) may).Reachable ok x) : I x.shared := by
  have hcovered : (guarded P W κ l I).Covered x := by
    refine Rely.covered_of_reachable (fun p c s g hs _ _ => ?_) (fun s hs => ?_) h
    · exact safe_critical hs fun s hs => hbody p c s hs
    · exact ⟨(), hinit s hs, fun _ => trivial⟩
  obtain ⟨g, hinv, -⟩ := hcovered
  exact hinv

end Program
