import FfiBridge.Registry.Poisoned

/-! # The registry as one table

What the registry is for: one table from names to closures, and whether its lock is poisoned.
An operation answers from the table and may write one entry of it, whichever API it came
through. Where client code that it runs under the lock panics, what it wrote stays and the
table is poisoned; from then on nothing is read from it or written to it.
-/
namespace FfiBridge
open Foundation

variable {κ : Type} {g : Registry κ} {op : RegistryOp κ} {n : String}

/-- What an operation gives back: an invocation, the error it makes or the closure it runs. -/
inductive Reply (κ : Type) where
  | registered (r : Except FfiError Unit)
  | removed (r : Except FfiError Bool)
  | count (n : ℕ)
  | status (code : ℤ)
  | fails (e : FfiError)
  | ran (f : κ)

/-- What the code gives back that finds the registry `g` behind the lock. -/
def RegistryOp.reply (g : Registry κ) : RegistryOp κ → Reply κ
  | registerCallback _ _ => .registered (if g.poisoned then .error .lockPoisoned else .ok ())
  | unregisterCallback name =>
    .removed (if g.poisoned then .error .lockPoisoned else .ok (g.callbacks.lookup name).isSome)
  | callbackCount | ffiCallbackCount => .count (if g.poisoned then 0 else g.callbacks.keys.card)
  | ffiRegisterCallback name _ =>
    match cstrToString name with
    | .ok _ => .status (if g.poisoned then -2 else 0)
    | .error _ => .status (-1)
  | ffiInvokeCallback name _ =>
    match cstrToString name with
    | .ok n =>
      if g.poisoned then .fails .lockPoisoned
      else match g.callbacks.lookup n with
        | none => .fails (.notFound n)
        | some r => .ran r.closure
    | .error e => .fails e
  | ffiUnregisterCallback name =>
    match cstrToString name with
    | .ok n => .status (if g.poisoned then -2 else if (g.callbacks.lookup n).isSome then 0 else -1)
    | .error _ => .status (-1)

/-! ## The table -/

structure Table (κ : Type) where
  map : String → Option κ
  poisoned : Bool

/-- The name an operation works on, once it is through with its own checks. -/
def RegistryOp.key : RegistryOp κ → Option String
  | registerCallback name _ | unregisterCallback name => some name
  | ffiRegisterCallback name _ | ffiInvokeCallback name _ | ffiUnregisterCallback name =>
    (cstrToString name).toOption
  | callbackCount | ffiCallbackCount => none

/-- The operations that run client code under the lock, if there is an entry under their name:
`unregister_callback` drops what it removed when the lock is free again. -/
def RegistryOp.entersClient : RegistryOp κ → Bool
  | registerCallback _ _ | ffiRegisterCallback _ _ | ffiInvokeCallback _ _
  | ffiUnregisterCallback _ => true
  | unregisterCallback _ | callbackCount | ffiCallbackCount => false

namespace Table

def empty : Table κ := ⟨fun _ => none, false⟩

/-- What an operation gives back, read off the table. -/
noncomputable def reply (a : Table κ) : RegistryOp κ → Reply κ
  | .registerCallback _ _ => .registered (if a.poisoned then .error .lockPoisoned else .ok ())
  | .unregisterCallback name =>
    .removed (if a.poisoned then .error .lockPoisoned else .ok (a.map name).isSome)
  | .callbackCount | .ffiCallbackCount =>
    .count (if a.poisoned then 0 else {n | (a.map n).isSome = true}.ncard)
  | .ffiRegisterCallback name _ =>
    .status (if (cstrToString name).isOk then if a.poisoned then -2 else 0 else -1)
  | .ffiInvokeCallback name _ =>
    match cstrToString name with
    | .ok n => if a.poisoned then .fails .lockPoisoned else (a.map n).elim (.fails (.notFound n)) .ran
    | .error e => .fails e
  | .ffiUnregisterCallback name =>
    match cstrToString name with
    | .ok n => .status (if a.poisoned then -2 else if (a.map n).isSome then 0 else -1)
    | .error _ => .status (-1)

/-- The table with the entry that an operation writes. -/
def after (a : Table κ) (op : RegistryOp κ) : Table κ :=
  if a.poisoned then a
  else match op.writes with
    | some (n, v) => { a with map := Function.update a.map n v }
    | none => a

/-- The operation runs client code under the lock. -/
def Enters (a : Table κ) (op : RegistryOp κ) : Prop :=
  op.entersClient = true ∧ ∃ n, op.key = some n ∧ (a.map n).isSome = true

/-- An operation on the table, with what it gives back and the end of the client code it runs
under the lock. -/
inductive Step (a : Table κ) : RegistryOp κ × Reply κ × Ending → Table κ → Prop
  | returns (op : RegistryOp κ) : Step a (op, a.reply op, .returns) (a.after op)
  | panics {op : RegistryOp κ} (hp : a.poisoned = false) (he : a.Enters op) :
      Step a (op, a.reply op, .panics) { a.after op with poisoned := true }

variable {a b : Table κ}

theorem after_of_poisoned (hp : a.poisoned = true) (op : RegistryOp κ) : a.after op = a := if_pos hp

theorem after_of_writes (hp : a.poisoned = false) {v : Option κ} (hw : op.writes = some (n, v)) :
    a.after op = { a with map := Function.update a.map n v } := by
  simp [after, hp, hw]

theorem after_of_reads (hw : op.writes = none) : a.after op = a := by
  simp [after, hw]

/-- An operation that does not come to the lock writes nothing, and answers the same anywhere. -/
theorem of_not_locks (hl : op.locks = false) : a.after op = a ∧ a.reply op = b.reply op := by
  have hname : ∀ {name : Option (List UInt8)}, (cstrToString name).isOk = false →
      ∃ e, cstrToString name = .error e := by
    intro name h
    cases hn : cstrToString name with
    | ok n => cases h.symm.trans (congrArg Except.isOk hn)
    | error e => exact ⟨e, rfl⟩
  cases op with
  | registerCallback name f | unregisterCallback name | callbackCount | ffiCallbackCount => cases hl
  | ffiRegisterCallback name cb =>
    obtain ⟨e, he⟩ := hname hl
    exact ⟨after_of_reads (by simp only [RegistryOp.writes, he]),
      by simp [reply, he, Except.isOk, Except.toBool]⟩
  | ffiInvokeCallback name input =>
    obtain ⟨e, he⟩ := hname hl
    exact ⟨after_of_reads rfl, by simp only [reply, he]⟩
  | ffiUnregisterCallback name =>
    obtain ⟨e, he⟩ := hname hl
    exact ⟨after_of_reads (by simp only [RegistryOp.writes, he]), by simp only [reply, he]⟩

end Table

/-! ## The registry of the threads -/

/-- The table that a registry holds. -/
def Registry.table (g : Registry κ) : Table κ :=
  ⟨fun n => (g.callbacks.lookup n).map Registration.closure, g.poisoned⟩

@[simp] theorem Registry.table_poisoned : g.table.poisoned = g.poisoned := rfl

@[simp] theorem Registry.table_map (n : String) :
    g.table.map n = (g.callbacks.lookup n).map Registration.closure := rfl

theorem RegistryOp.reply_eq (g : Registry κ) (op : RegistryOp κ) : op.reply g = g.table.reply op := by
  cases op with
  | registerCallback name f => rfl
  | unregisterCallback name => simp [reply, Table.reply]
  | callbackCount | ffiCallbackCount => simp [reply, Table.reply, card_keys]
  | ffiRegisterCallback name cb =>
    simp only [reply, Table.reply]
    cases cstrToString name <;> rfl
  | ffiInvokeCallback name input =>
    simp only [reply, Table.reply]
    cases cstrToString name with
    | error e => rfl
    | ok n =>
      simp only [Registry.table_map, Registry.table_poisoned]
      cases g.callbacks.lookup n <;> rfl
  | ffiUnregisterCallback name =>
    simp only [reply, Table.reply]
    cases cstrToString name with
    | error e => rfl
    | ok n => simp

theorem Registry.table_write (n : String) (v : Option κ) :
    (g.write n v).table = { g.table with map := Function.update g.table.map n v } := by
  have hmap : (g.write n v).table.map = Function.update g.table.map n v := by
    ext1 m
    cases v with
    | none =>
      by_cases h : m = n
      · subst h
        simp [write]
      · simp [write, h, Finmap.lookup_erase_ne h]
    | some f =>
      by_cases h : m = n
      · subst h
        simp [write, insert]
      · simp [write, insert, h, Finmap.lookup_insert_of_ne _ h]
  rw [← hmap]
  cases v <;> rfl

/-- The work under the guard is what the operation does to the table. -/
theorem RegistryOp.table_work (op : RegistryOp κ) (hp : g.poisoned = false) :
    (op.work g).1.table = g.table.after op := by
  have hworks := op.works g
  cases hw : op.writes with
  | none =>
    rw [hw] at hworks
    rw [Table.after_of_reads hw]
    generalize op.work g = x at hworks
    obtain ⟨g', after⟩ := x
    cases hworks <;> rfl
  | some w =>
    obtain ⟨n, v⟩ := w
    rw [hw] at hworks
    rw [Table.after_of_writes hp hw, hworks.of_some.1, Registry.table_write]

/-- What is entered under the guard was in the table. -/
theorem RegistryOp.enters_of_work {g' : Registry κ} {role : Role κ}
    (hw : op.work g = (g', .enter role)) : g.table.Enters op := by
  have hentry : ∀ {m : String} {f : Registration κ → After κ} {role : Role κ},
      (match g.callbacks.lookup m with | none => After.release none | some r => f r) = .enter role →
        (g.table.map m).isSome = true := by
    intro m f role h
    cases hl : g.callbacks.lookup m with
    | none => simp [hl] at h
    | some r => simp [hl]
  have hafter := congrArg Prod.snd hw
  cases op with
  | registerCallback name f => exact ⟨rfl, name, rfl, hentry hafter⟩
  | unregisterCallback name =>
    simp only [work, Registry.remove] at hafter
    cases hl : g.callbacks.lookup name <;> simp [hl] at hafter
  | callbackCount | ffiCallbackCount => cases hw
  | ffiRegisterCallback name cb =>
    simp only [work] at hafter
    cases hn : cstrToString name with
    | error e => simp [hn] at hafter
    | ok n =>
      rw [hn] at hafter
      exact ⟨rfl, n, by simp [key, hn, Except.toOption], hentry hafter⟩
  | ffiInvokeCallback name input =>
    simp only [work] at hafter
    cases hn : cstrToString name with
    | error e => simp [hn] at hafter
    | ok n =>
      rw [hn] at hafter
      exact ⟨rfl, n, by simp [key, hn, Except.toOption], hentry hafter⟩
  | ffiUnregisterCallback name =>
    simp only [work] at hafter
    cases hn : cstrToString name with
    | error e => simp [hn] at hafter
    | ok n =>
      rw [hn] at hafter
      exact ⟨rfl, n, by simp [key, hn, Except.toOption], hentry hafter⟩

/-! ## The registry of one thread -/

def Library.table (l : Library) : Table CallbackFn := ⟨fun n => l.callbacks.lookup n, l.poisoned⟩

/-- The answer of an operation that led from `l` to `l'` is the reply, with the result of the
closure where one ran, or with its panic. -/
def Replies (l l' : Library) :
    RegistryOp CallbackFn → Reply CallbackFn × Ending → RegistryAnswer → Prop
  | _, (.registered r, .returns), .registered r' => r' = r
  | _, (.removed r, .returns), .removed r' => r' = r
  | _, (.count k, .returns), .count k' => k' = k
  | _, (.status code, .returns), .status code' => code' = code
  | _, (.fails e, .returns), .result out => out.Carries e l'.heap
  | .ffiInvokeCallback name input, (.ran cb, .returns), .result out =>
    ∃ n, cstrToString name = .ok n ∧ AnswersWith cb n input l l' out
  | .ffiInvokeCallback _ input, (.ran cb, .panics), .result out =>
    ∃ p h, (cb.run input).run l.heap = .error (.panic p) h ∧ out.Carries (.panic p.text) l'.heap
  | _, _, _ => False

variable {rt : Runtime} {l l' : Library} {name : Option (List UInt8)} {input : FfiBuffer}
  {out : FfiResult} {operation : RegistryOp CallbackFn} {answer : RegistryAnswer} {h : Heap}

theorem Library.table_insert (n : String) (cb : CallbackFn) :
    { l with callbacks := l.callbacks.insert n cb }.table =
      { l.table with map := Function.update l.table.map n (some cb) } := by
  unfold table
  congr 1
  ext1 m
  by_cases hm : m = n
  · subst hm
    simp
  · simp [hm, Finmap.lookup_insert_of_ne _ hm]

theorem Library.table_erase (n : String) :
    { l with callbacks := l.callbacks.erase n }.table =
      { l.table with map := Function.update l.table.map n none } := by
  unfold table
  congr 1
  ext1 m
  by_cases hm : m = n
  · subst hm
    simp
  · simp [hm, Finmap.lookup_erase_ne hm]

theorem Library.SameRegistry.table (hs : l.SameRegistry l') : l'.table = l.table := by
  obtain ⟨hc, hp, -⟩ := hs
  simp [Library.table, hc, hp]

/-- The callback that an operation with this reply has entered, with its input. -/
def Reply.entered : RegistryOp CallbackFn → Reply CallbackFn → List (CallbackFn × FfiBuffer)
  | .ffiInvokeCallback _ input, .ran cb => [(cb, input)]
  | _, _ => []

/-- What an operation did to the library, called and answered, it did to the table, ran from it
and got as a reply. -/
def OnTable (l l' : Library) (op : RegistryOp CallbackFn) (answer : RegistryAnswer) : Prop :=
  ∃ x, Table.Step l.table (op, x) l'.table ∧ Replies l l' op x answer ∧
    l'.calls = Reply.entered op x.1 ++ l.calls

theorem OnTable.of_reply {r : Reply CallbackFn} (hr : l.table.reply operation = r)
    (hl : l'.table = l.table.after operation) (ha : Replies l l' operation (r, .returns) answer)
    (hc : l'.calls = Reply.entered operation r ++ l.calls) : OnTable l l' operation answer := by
  subst hr
  exact ⟨_, hl ▸ .returns operation, ha, hc⟩

/-- The error of an invocation, made by the library. -/
theorem OnTable.of_made {e : FfiError} (hr : l.table.reply (.ffiInvokeCallback name input) = .fails e)
    (ho : (within (FfiResult.err rt e)).run l = .ok out l') :
    OnTable l l' (.ffiInvokeCallback name input) (.result out) := by
  obtain ⟨hcar, hsame⟩ := made_of_within ho
  exact .of_reply hr (hsame.table.trans (Table.after_of_reads rfl).symm) hcar hsame.2.2

theorem invoke_onTable (ho : (ffiInvokeCallback rt name input).run l = .ok out l') :
    OnTable l l' (.ffiInvokeCallback name input) (.result out) := by
  cases hn : cstrToString name with
  | error e =>
    exact .of_made (by simp only [Table.reply, hn]) ((run_invoke_invalid hn).symm.trans ho)
  | ok n =>
    cases hp : l.poisoned with
    | true =>
      refine .of_made ?_ ((run_invoke_poisoned hn hp).symm.trans ho)
      simp [Table.reply, hn, Library.table, hp]
    | false =>
      cases hl : l.callbacks.lookup n with
      | none =>
        refine .of_made ?_ ((run_invoke_notFound hn hp hl).symm.trans ho)
        simp [Table.reply, hn, Library.table, hp, hl]
      | some cb =>
        have hc := Library.callee_eq_some.mpr ⟨n, hn, hp, hl⟩
        have hran : l.table.reply (.ffiInvokeCallback name input) = .ran cb := by
          simp [Table.reply, hn, Library.table, hp, hl]
        have hkept : l.table.after (.ffiInvokeCallback name input) = l.table :=
          Table.after_of_reads rfl
        cases invocationEnd_of_ok ho with
        | notEntered e hc' _ => cases hc'.symm.trans hc
        | success hc' hr hok =>
          cases hc'.symm.trans hc
          exact .of_reply hran hkept.symm ⟨n, hn, _, _, hr, by simp [hok]⟩ rfl
        | error hn' hc' hr hok ho' =>
          cases hc'.symm.trans hc
          cases hn'.symm.trans hn
          obtain ⟨hcar, hsame⟩ := made_of_within ho'
          exact .of_reply hran (hsame.table.trans hkept.symm)
            ⟨n, hn, _, _, hr, by simpa [hok] using hcar⟩ hsame.2.2
        | panicked hc' hr ho' =>
          cases hc'.symm.trans hc
          obtain ⟨hcar, hsame⟩ := made_of_within ho'
          have henters : l.table.Enters (.ffiInvokeCallback name input) :=
            ⟨rfl, n, by simp [RegistryOp.key, hn, Except.toOption], by simp [Library.table, hl]⟩
          have hstep := Table.Step.panics (a := l.table) hp henters
          rw [hkept, hran] at hstep
          exact ⟨(.ran _, .panics), hsame.table ▸ hstep, ⟨_, _, hr, hcar⟩, hsame.2.2⟩

/-- Every operation of the one-thread model that returns is one on the table, panics included. -/
theorem RegistryOp.Step.onTable (hs : RegistryOp.Step rt l (operation, answer) l') :
    OnTable l l' operation answer := by
  have hpoison : ∀ {op : RegistryOp CallbackFn}, l.poisoned = true → l.table = l.table.after op :=
    fun hp => (Table.after_of_poisoned hp _).symm
  cases operation with
  | registerCallback n f =>
    obtain ⟨r, t, hr, ha⟩ := bind_eq_ok.mp hs
    cases ha
    cases hp : l.poisoned with
    | true =>
      cases (run_lockCallbacks_poisoned hp).symm.trans hr
      exact .of_reply rfl (hpoison hp) (by simp [Replies, Table.reply, Library.table, hp]) rfl
    | false =>
      cases (run_registerCallback hp).symm.trans hr
      exact .of_reply rfl ((Library.table_insert n f).trans (Table.after_of_writes hp rfl).symm)
        (by simp [Replies, Table.reply, Library.table, hp]) rfl
  | unregisterCallback n =>
    obtain ⟨r, t, hr, ha⟩ := bind_eq_ok.mp hs
    cases ha
    cases hp : l.poisoned with
    | true =>
      cases (run_lockCallbacks_poisoned hp).symm.trans hr
      exact .of_reply rfl (hpoison hp) (by simp [Replies, Table.reply, Library.table, hp]) rfl
    | false =>
      cases (run_unregisterCallback hp).symm.trans hr
      exact .of_reply rfl ((Library.table_erase n).trans (Table.after_of_writes hp rfl).symm)
        (by simp [Replies, Table.reply, Library.table, hp]) rfl
  | callbackCount | ffiCallbackCount =>
    obtain ⟨k, t, hr, ha⟩ := bind_eq_ok.mp hs
    cases ha
    cases hp : l.poisoned with
    | true =>
      cases (run_lockCallbacks_poisoned hp).symm.trans hr
      exact .of_reply rfl (hpoison hp) (by simp [Replies, Table.reply, Library.table, hp]) rfl
    | false =>
      cases (run_callbackCount hp).symm.trans hr
      exact .of_reply rfl (Table.after_of_reads rfl).symm
        (by simp [Replies, Table.reply, Library.table, hp, card_keys]) rfl
  | ffiRegisterCallback name cb =>
    obtain ⟨code, t, hr, ha⟩ := bind_eq_ok.mp hs
    cases ha
    cases hn : cstrToString name with
    | error e =>
      cases (run_ffiRegisterCallback_invalid hn).symm.trans hr
      exact .of_reply rfl (Table.after_of_reads (by simp only [RegistryOp.writes, hn])).symm
        (by simp [Replies, Table.reply, hn, Except.isOk, Except.toBool]) rfl
    | ok n =>
      cases hp : l.poisoned with
      | true =>
        cases (run_ffiRegisterCallback_poisoned cb hp).symm.trans hr
        exact .of_reply rfl (hpoison hp)
          (by simp [Replies, refusalStatus, Table.reply, hn, Library.table, hp, Except.isOk, Except.toBool]) rfl
      | false =>
        cases (run_ffiRegisterCallback hn hp).symm.trans hr
        exact .of_reply rfl ((Library.table_insert n cb).trans
          (Table.after_of_writes hp (by simp only [RegistryOp.writes, hn])).symm)
          (by simp [Replies, Table.reply, hn, Library.table, hp, Except.isOk, Except.toBool]) rfl
  | ffiInvokeCallback name input =>
    obtain ⟨out, t, hr, ha⟩ := bind_eq_ok.mp hs
    cases ha
    exact invoke_onTable hr
  | ffiUnregisterCallback name =>
    obtain ⟨code, t, hr, ha⟩ := bind_eq_ok.mp hs
    cases ha
    cases hn : cstrToString name with
    | error e =>
      cases (run_ffiUnregisterCallback_invalid hn).symm.trans hr
      exact .of_reply rfl (Table.after_of_reads (by simp only [RegistryOp.writes, hn])).symm
        (by simp [Replies, Table.reply, hn]) rfl
    | ok n =>
      cases hp : l.poisoned with
      | true =>
        cases (run_ffiUnregisterCallback_poisoned hp).symm.trans hr
        exact .of_reply rfl (hpoison hp)
          (by simp [Replies, refusalStatus, Table.reply, hn, Library.table, hp]) rfl
      | false =>
        cases (run_ffiUnregisterCallback hn hp).symm.trans hr
        exact .of_reply rfl ((Library.table_erase n).trans
          (Table.after_of_writes hp (by simp only [RegistryOp.writes, hn])).symm)
          (by simp [Replies, Table.reply, hn, Library.table, hp]) rfl

/-- One operation, done on a library and on a table beside it which is the library's before and
after: the answer tells the reply, and what was called is what ran from the table. Other code may
have used the heap before. -/
def JointStep (rt : Runtime) (x : Library × Table CallbackFn)
    (e : (RegistryOp CallbackFn × RegistryAnswer) × Reply CallbackFn × Ending)
    (y : Library × Table CallbackFn) : Prop :=
  (∃ h, RegistryOp.Step rt { x.1 with heap := h } e.1 y.1 ∧
    Replies { x.1 with heap := h } y.1 e.1.1 e.2 e.1.2) ∧
  Table.Step x.2 (e.1.1, e.2) y.2 ∧ x.2 = x.1.table ∧ y.2 = y.1.table ∧
  y.1.calls = Reply.entered e.1.1 e.2.1 ++ x.1.calls

/-- Every history of the one-thread model, over any use of the heap in between and with panics
of callbacks, is one of the library and the table together: each operation takes the table from
what the library holds before it to what the library holds after it. -/
theorem history_refines_table {es : List (RegistryOp CallbackFn × RegistryAnswer)}
    (hrun : Execution (LaterStep rt) ⟨h, ∅, false, []⟩ es l) :
    ∃ gs, Execution (JointStep rt) (⟨h, ∅, false, []⟩, .empty) gs (l, l.table) ∧
      gs.map Prod.fst = es := by
  have hstep : ∀ l e l', LaterStep rt l e l' →
      ∃ f, JointStep rt (l, l.table) (e, f) (l', l'.table) := by
    rintro l e l' ⟨h, hs⟩
    obtain ⟨x, hx, hrep, hcalls⟩ := RegistryOp.Step.onTable hs
    exact ⟨x, ⟨h, hs, hrep⟩, hx, rfl, rfl, hcalls⟩
  exact hrun.paired hstep

/-- A callback that panics stays in the table and is counted no more. -/
theorem history_refines_table_boom : ∃ out l gs,
    Execution (JointStep (.granting .unwind)) (.empty, .empty) gs (l, l.table) ∧
    gs.map Prod.fst = [(.callbackCount, .count 0), (.ffiInvokeCallback (some [98]) .null, .result out),
      (.registerCallback "b" (.panicking "boom"), .registered (.ok ()))] ∧
    l.table.poisoned = true ∧ (l.table.map "b").isSome = true := by
  have h₁ : Execution (LaterStep (.granting .unwind)) .empty
      [(.registerCallback "b" (.panicking "boom"), .registered (.ok ()))] _ := .single ⟨.empty, rfl⟩
  have hcall : ∃ out l, (ffiInvokeCallback (.granting .unwind) (some [98]) .null).run
      ⟨.empty, Finmap.insert "b" (.panicking "boom") ∅, false, []⟩ = .ok out l ∧ l.poisoned = true ∧
        (l.table.map "b").isSome = true := ⟨_, _, rfl, rfl, rfl⟩
  obtain ⟨out, l, ho, hp, hb⟩ := hcall
  have hinvoke : RegistryOp.Step (.granting .unwind)
      ⟨.empty, Finmap.insert "b" (.panicking "boom") ∅, false, []⟩
      (.ffiInvokeCallback (some [98]) .null, .result out) l := bind_of_ok ho _
  have h₂ := h₁.step ⟨.empty, hinvoke⟩
  have hcount : RegistryOp.Step (.granting .unwind) { l with heap := .empty }
      (.callbackCount, .count 0) { l with heap := .empty } :=
    bind_of_ok (run_lockCallbacks_poisoned (l := { l with heap := .empty }) hp) _
  have h₃ := h₂.step ⟨.empty, hcount⟩
  obtain ⟨gs, hgs, heq⟩ := history_refines_table h₃
  exact ⟨out, _, gs, hgs, heq, hp, hb⟩

end FfiBridge
