import Reconcile.Storage

namespace Reconcile
open Lib
set_option autoImplicit true

namespace Fs

@[simp] theorem ofExcept_ok_bind (a : α) (f : α → Fs β) : (ofExcept (.ok a) >>= f) = f a := rfl

@[simp] theorem ofExcept_error_bind (e : IoError) (f : α → Fs β) :
    (ofExcept (.error e) >>= f) = throw e := rfl

/-- The result of a whole operation whose calls all take effect. -/
def quiet (x : Fs α) (d : Disk) : Except IoError α × Disk :=
  Prog.eval fileSystem (.succeed []) x.run d

theorem quiet_bind (x : Fs α) (f : α → Fs β) (d : Disk) :
    (x >>= f).quiet d = match x.quiet d with
      | (.ok a, d') => (f a).quiet d'
      | (.error e, d') => (.error e, d') := by
  have h := Prog.eval_bind fileSystem (.succeed []) x.run (ExceptT.bindCont f) d
  refine h.trans ?_
  unfold quiet
  rcases Prog.eval fileSystem (.succeed []) x.run d with ⟨_ | a, d'⟩ <;> rfl

@[simp] theorem quiet_pure (a : α) (d : Disk) : (pure a : Fs α).quiet d = (.ok a, d) := rfl

@[simp] theorem quiet_throw (e : IoError) (d : Disk) :
    (throw e : Fs α).quiet d = (.error e, d) := rfl

@[simp] theorem quiet_ofExcept (r : Except IoError α) (d : Disk) :
    (ofExcept r).quiet d = (r, d) := by
  cases r <;> rfl

theorem quiet_lift (p : Prog FsOp FsOp.Ans α) (d : Disk) : Fs.quiet (ExceptT.lift p) d =
    (.ok (p.eval fileSystem (.succeed []) d).1, (p.eval fileSystem (.succeed []) d).2) :=
  Prog.eval_bind fileSystem (.succeed []) p (fun a => .pure (Except.ok a)) d

theorem quiet_attempt (x : Fs α) (d : Disk) :
    x.attempt.quiet d = (.ok (x.quiet d).1, (x.quiet d).2) := quiet_lift x.run d

theorem quiet_read (name : FileName) (d : Disk) :
    (read name).quiet d = (match d name with
      | some f => .ok f.bytes
      | none => .error .notFound, d) := rfl

theorem quiet_effect (o : Effect) (d : Disk) : (effect o).quiet d = match o.apply d with
    | some d' => (.ok (), d')
    | none => (.error .notFound, d) := rfl

theorem exists_script {x : Fs α} {d d' : Disk} {a : α} (h : x.quiet d = (.ok a, d'))
    (f : α → Fs β) : ∃ script, ∀ rest, Prog.run fileSystem (script ++ rest) ((x >>= f).run, d) =
      Prog.run fileSystem rest ((f a).run, d') := by
  obtain ⟨script, hs⟩ :=
    Prog.exists_script fileSystem (.succeed []) x.run (ExceptT.bindCont f) d
  refine ⟨script, fun rest => (hs rest).trans ?_⟩
  unfold quiet at h
  rw [h]
  rfl

/-- `I` holds whenever the operation is interrupted, and `Q` of its result when it returns. -/
def Ensures (adm : FsOp → Decision → Disk → Prop) (I : Disk → Prop) (x : Fs α)
    (Q : Except IoError α → Disk → Prop) (d : Disk) : Prop :=
  Prog.Always fileSystem (.alone Disk) adm I x.run Q d

variable {adm : FsOp → Decision → Disk → Prop} {I : Disk → Prop}

theorem always_pure {a : α} {Q : α → Disk → Prop} {d : Disk} (hI : I d) (hQ : Q a d) :
    Prog.Always fileSystem (.alone Disk) adm I (.pure a) Q d := by
  intro d' h
  cases h
  exact ⟨hI, hQ⟩

theorem ensures_pure {a : α} {Q : Except IoError α → Disk → Prop} {d : Disk} (hI : I d)
    (hQ : Q (.ok a) d) : Ensures adm I (pure a) Q d := always_pure hI hQ

theorem ensures_throw {e : IoError} {Q : Except IoError α → Disk → Prop} {d : Disk} (hI : I d)
    (hQ : Q (.error e) d) : Ensures adm I (throw e) Q d := always_pure hI hQ

theorem ensures_bind {x : Fs α} {f : α → Fs β} {Q' : Except IoError α → Disk → Prop}
    {Q : Except IoError β → Disk → Prop} {d : Disk} (hx : Ensures adm I x Q' d)
    (hok : ∀ a d', I d' → Q' (.ok a) d' → Ensures adm I (f a) Q d')
    (herr : ∀ e d', Q' (.error e) d' → Q (.error e) d') : Ensures adm I (x >>= f) Q d := by
  refine Prog.Always.bind hx ?_
  intro r d' hI hQ
  cases r with
  | ok a => exact hok a d' hI hQ
  | error e => exact always_pure hI (herr e d' hQ)

theorem ensures_attempt {x : Fs α} {Q : Except IoError α → Disk → Prop} {d : Disk}
    (hx : Ensures adm I x Q d) : Ensures adm I x.attempt (fun r d' => match r with
      | .ok r => Q r d'
      | .error _ => False) d := by
  refine Prog.Always.bind hx ?_
  intro r d' hI hQ
  exact always_pure hI hQ

theorem ensures_lift {p : Prog FsOp FsOp.Ans α} {Q : Except IoError α → Disk → Prop} {d : Disk}
    (hp : Prog.Always fileSystem (.alone Disk) adm I p (fun a d' => Q (.ok a) d') d) :
    Ensures adm I (ExceptT.lift p) Q d := by
  refine Prog.Always.bind hp ?_
  intro a d' hI hQ
  exact always_pure hI hQ

theorem Ensures.mono {x : Fs α} {Q Q' : Except IoError α → Disk → Prop} {d : Disk}
    (h : Ensures adm I x Q d) (hI : ∀ d, I d → J d) (hQ : ∀ r d, Q r d → Q' r d) :
    Ensures adm J x Q' d := Prog.Always.mono h hI hQ

theorem Ensures.of_quiet {x : Fs α} {Q : Except IoError α → Disk → Prop} {d d' : Disk}
    {r : Except IoError α} (h : Ensures (fun _ _ _ => True) I x Q d) (hq : x.quiet d = (r, d')) :
    Q r d' := by
  have he : Q (x.quiet d).1 (x.quiet d).2 := Prog.Always.eval h (.succeed [])
  rw [hq] at he
  exact he

/-- An operation under a decision for each of its calls: what it returned, if the decisions did not
run out before, and the disk it left. -/
def scripted (x : Fs α) (script : List Decision) (d : Disk) :
    Option (Except IoError α) × Disk :=
  match Prog.run fileSystem script (x.run, d) with
  | (.pure r, d') => (some r, d')
  | (.call _ _, d') => (none, d')

theorem Ensures.scripted {x : Fs α} {Q : Except IoError α → Disk → Prop} {d d' : Disk}
    {r : Except IoError α} {script : List Decision}
    (h : Ensures (fun _ _ _ => True) I x Q d) (hr : x.scripted script d = (some r, d')) :
    Q r d' := by
  have hrun := Prog.Always.run h script
  rw [Fs.scripted] at hr
  generalize Prog.run fileSystem script (x.run, d) = c at hr hrun
  obtain ⟨p, d₁⟩ := c
  cases p with
  | pure a =>
    cases hr
    exact hrun.ret
  | call o next => cases hr

theorem always_perform {o : FsOp} {next : o.Ans → Prog FsOp FsOp.Ans α} {Q : α → Disk → Prop}
    {d : Disk} (hI : I d) (h : ∀ e, adm o e d → Prog.Always fileSystem (.alone Disk) adm I
      (next (fileSystem.exec o e d).1) Q (fileSystem.exec o e d).2) :
    Prog.Always fileSystem (.alone Disk) adm I (.call o next) Q d := by
  intro d' hd
  cases hd
  exact ⟨hI, h⟩

theorem ensures_effect {o : Effect} {d d₁ : Disk} {Q : Except IoError Unit → Disk → Prop}
    (hI : I d) (hs : o.apply d = some d₁) (hok : I d₁ ∧ Q (.ok ()) d₁)
    (hf : ∀ w, adm (.effect o) (.fail w) d →
      I (o.interrupt d w) ∧ Q (.error .injected) (o.interrupt d w)) :
    Ensures adm I (effect o) Q d := by
  apply always_perform hI
  intro e he
  cases e with
  | succeed names =>
    simp only [fileSystem, hs]
    exact always_pure hok.1 hok.2
  | fail w => exact always_pure (hf w he).1 (hf w he).2

theorem ensures_read {name : FileName} {d : Disk} {Q : Except IoError Bytes → Disk → Prop}
    (hI : I d) (hok : ∀ f, d name = some f → Q (.ok f.bytes) d)
    (hnone : d name = none → Q (.error .notFound) d)
    (hf : ∀ w, adm (.read name) (.fail w) d → Q (.error .injected) d) :
    Ensures adm I (read name) Q d := by
  apply always_perform hI
  intro e he
  cases e with
  | succeed names =>
    simp only [fileSystem]
    cases hd : d name with
    | some f => exact always_pure hI (hok f hd)
    | none => exact always_pure hI (hnone hd)
  | fail w => exact always_pure hI (hf w he)

end Fs

/-- Nothing but the temporary file of `path` changed. -/
def Disk.Untouched (d : Disk) (path : FileName) (d' : Disk) : Prop :=
  ∀ name, name ≠ .tmp path → d' name = d name

structure Disk.Written (d : Disk) (path : FileName) (bytes : Bytes) (d' : Disk) : Prop where
  file : d' path = some ⟨bytes, true⟩
  frame : ∀ name, name ≠ path → name ≠ .tmp path → d' name = d name

theorem Disk.Untouched.update {d d' : Disk} {path : FileName} (h : d.Untouched path d')
    (f : Option File) : d.Untouched path (Function.update d' (.tmp path) f) := by
  intro name hn
  rw [Function.update_of_ne hn]
  exact h name hn

theorem Disk.Untouched.append {d d' : Disk} {path : FileName} (h : d.Untouched path d')
    (bytes : Bytes) : d.Untouched path (d'.append (.tmp path) bytes) := by
  unfold Disk.append
  split
  · exact h.update _
  · exact h

theorem Disk.Untouched.rename {d d' : Disk} {path : FileName} (h : d.Untouched path d')
    (bytes : Bytes) : d.Written path bytes
      (Function.update (Function.update d' (.tmp path) none) path (some ⟨bytes, true⟩)) where
  file := Function.update_self ..
  frame name hp ht := by
    rw [Function.update_of_ne hp, Function.update_of_ne ht]
    exact h name ht

theorem quiet_writeAtomic (path : FileName) (bytes : Bytes) (d : Disk) :
    ∃ d', (writeAtomic path bytes).quiet d = (.ok (), d') ∧ d.Written path bytes d' := by
  have h₀ : d.Untouched path d := fun _ _ => rfl
  refine ⟨_, ?_, (h₀.update (some ⟨bytes, true⟩)).rename bytes⟩
  simp only [writeAtomic, Fs.quiet_bind, Fs.quiet_effect, Effect.apply, Disk.append,
    Function.update_self, Function.update_idem, Option.map_some, List.nil_append]

theorem Fs.ensures_then {adm : FsOp → Decision → Disk → Prop} {I : Disk → Prop} {o : Effect}
    {rest : Fs α} {d d₁ : Disk} {Q : Except IoError α → Disk → Prop} (hI : I d)
    (hs : o.apply d = some d₁) (hI₁ : I d₁)
    (hf : ∀ w, adm (.effect o) (.fail w) d →
      I (o.interrupt d w) ∧ Q (.error .injected) (o.interrupt d w))
    (hr : Fs.Ensures adm I rest Q d₁) :
    Fs.Ensures adm I (do Fs.effect o; rest) Q d := by
  have hx : Fs.Ensures adm I (Fs.effect o) (fun r d' => match r with
      | .ok _ => d' = d₁
      | .error e => Q (.error e) d') d := Fs.ensures_effect hI hs ⟨hI₁, rfl⟩ hf
  refine Fs.ensures_bind hx ?_ (fun _ _ h => h)
  intro _ d' _ hd
  cases hd
  exact hr

/-- `write_atomic` replaces the file or leaves it alone. It reports an error after the rename
only when the directory sync failed. -/
theorem ensures_writeAtomic {adm : FsOp → Decision → Disk → Prop} {I : Disk → Prop}
    {path : FileName} {bytes : Bytes} {d : Disk} (hI₀ : ∀ d', d.Untouched path d' → I d')
    (hI₁ : ∀ d', d.Written path bytes d' → I d') :
    Fs.Ensures adm I (writeAtomic path bytes) (fun r d' => match r with
      | .ok _ => d.Written path bytes d'
      | .error _ => d.Untouched path d' ∨
          (d.Written path bytes d' ∧ ∃ w, adm (.effect (.syncParent path)) (.fail w) d')) d := by
  have h₀ : d.Untouched path d := fun _ _ => rfl
  have h₁ := h₀.update (some ⟨[], false⟩)
  have h₂ := h₁.append bytes
  have hfile : Disk.append (Function.update d (.tmp path) (some ⟨[], false⟩)) (.tmp path) bytes =
      Function.update d (.tmp path) (some ⟨bytes, false⟩) := by
    simp only [Disk.append, Function.update_self, Function.update_idem, List.nil_append]
  have h₃ := h₀.update (some ⟨bytes, true⟩)
  have h₄ := h₃.rename bytes
  refine Fs.ensures_then (hI₀ d h₀) rfl (hI₀ d h₀)
    (fun _ _ => ⟨hI₀ d h₀, .inl h₀⟩) ?_
  refine Fs.ensures_then (hI₀ d h₀) rfl (hI₀ _ h₁)
    (fun _ _ => ⟨hI₀ d h₀, .inl h₀⟩) ?_
  refine Fs.ensures_then (hI₀ _ h₁) rfl (hI₀ _ h₂)
    (fun _ _ => ⟨hI₀ _ (h₁.append _), .inl (h₁.append _)⟩) ?_
  rw [hfile] at h₂ ⊢
  have hsync : (Effect.syncAll (.tmp path)).apply
      (Function.update d (.tmp path) (some ⟨bytes, false⟩)) =
        some (Function.update d (.tmp path) (some ⟨bytes, true⟩)) := by
    simp only [Effect.apply, Function.update_self, Option.map_some, Function.update_idem]
  refine Fs.ensures_then (hI₀ _ h₂) hsync (hI₀ _ h₃)
    (fun _ _ => ⟨hI₀ _ h₂, .inl h₂⟩) ?_
  refine Fs.ensures_then (hI₀ _ h₃) ?_ (hI₁ _ h₄)
    (fun _ _ => ⟨hI₀ _ h₃, .inl h₃⟩) ?_
  · simp only [Effect.apply, Function.update_self, Option.map_some]
  exact Fs.ensures_effect (hI₁ _ h₄) rfl ⟨hI₁ _ h₄, h₄⟩
    (fun w hw => ⟨hI₁ _ h₄, .inr ⟨h₄, w, hw⟩⟩)

end Reconcile
