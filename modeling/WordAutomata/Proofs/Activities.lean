import WordAutomata.Tool.Console
import WordAutomata.Tool.FileSystem

/-!
# What Activities Ensure

A session is a plan with an answer left open at each request. In a file system all
answers are settled but those of the clock, so a session ensures something if it ends
that way whatever the clock says. An activity also talks, on two channels. Only
its results are of interest here: of the reports, and of the phases that were timed,
nothing is asked and nothing is assumed.

So there is a rule for each way of putting activities together, and each rule says
what to show of the parts. That a part is timed, or that it keeps a log, makes no
difference to what it ensures, which is why no rule speaks of times or records.

## Main definitions

* `Tool.Session.Ensures`: How a session ends in a file system.
* `Tool.Activity.Ensures`: How an activity ends, and what its results are.

## Theorems

* `Tool.Session.Ensures.play`: What is ensured holds when a session is played.
* `Tool.Activity.Ensures.bind`, `tryCatch`: One activity after another one.
* `Tool.Activity.ensures_noting`: Keeping a log.
* `Tool.Activity.Ensures.timed`: Timing an activity.
-/

namespace WordAutomata

namespace Tool

variable {α β : Type}

namespace Session

/-- In the file system the session ends with a value and a file system of which
    something holds, whatever the clock says. -/
def Ensures : Session α → FileSystem → (α → FileSystem → Prop) → Prop
  | done a, s, post => post a s
  | read path next, s, post => (next (s.find path)).Ensures s post
  | save path text next, s, post =>
    match s.put path text with
    | .error e => (next (.error e)).Ensures s post
    | .ok s => (next (.ok ())).Ensures s post
  | clock next, s, post => ∀ now, (next now).Ensures s post

variable {x : Session α} {s : FileSystem} {post : α → FileSystem → Prop}

/-- Saving a text ensures what the rest of the session does, with the answer of the file
    system and with the text in it, unless there was an error. -/
theorem ensures_save_iff {path text : String} {next : Except FileError Unit → Session α} :
    (save path text next).Ensures s post ↔
      (∀ e, s.put path text = .error e → (next (.error e)).Ensures s post) ∧
      ∀ s', s.put path text = .ok s' → (next (.ok ())).Ensures s' post := by
  rw [Ensures]
  cases s.put path text with
  | error e => simp only [Except.error.injEq, forall_eq', reduceCtorEq, false_imp_iff,
      implies_true, and_true]
  | ok s' => simp only [Except.ok.injEq, forall_eq', reduceCtorEq, false_imp_iff,
      implies_true, true_and]

theorem Ensures.imp {goal : α → FileSystem → Prop} (h : x.Ensures s post)
    (himp : ∀ a s, post a s → goal a s) : x.Ensures s goal := by
  induction x generalizing s with
  | done a => exact himp a s h
  | read path next ih => exact ih (s.find path) h
  | save path text next ih =>
      rw [ensures_save_iff] at h ⊢
      exact ⟨fun e he => ih (.error e) (h.1 e he), fun s' hs => ih (.ok ()) (h.2 s' hs)⟩
  | clock next ih =>
      intro now
      exact ih now (h now)

/-- One session and then another. -/
theorem Ensures.bind {f : α → Session β} {goal : β → FileSystem → Prop}
    (h : x.Ensures s fun a s => (f a).Ensures s goal) : (x.bind f).Ensures s goal := by
  induction x generalizing s with
  | done a => exact h
  | read path next ih => exact ih (s.find path) h
  | save path text next ih =>
      rw [Session.bind, ensures_save_iff]
      rw [ensures_save_iff] at h
      exact ⟨fun e he => ih (.error e) (h.1 e he), fun s' hs => ih (.ok ()) (h.2 s' hs)⟩
  | clock next ih =>
      intro now
      exact ih now (h now)

/-- What is ensured holds when the session is played through. -/
theorem Ensures.play (h : x.Ensures s post) : post (x.play s).1 (x.play s).2 := by
  induction x generalizing s with
  | done a => exact h
  | read path next ih => exact ih (s.find path) h
  | save path text next ih =>
      rw [ensures_save_iff] at h
      unfold Session.play
      cases hput : s.put path text with
      | error e => exact ih (.error e) (h.1 e hput)
      | ok s' => exact ih (.ok ()) (h.2 s' hput)
  -- The clock stands still there, and that is one of the things that it may say.
  | clock next ih => exact ih ⟨0⟩ (h ⟨0⟩)

end Session

namespace Activity

/-- In the file system, and with some results so far, the activity ends with a value or
    an error, with results, and with a file system of which something holds. What the
    clock says does not matter, and neither does what was reported. -/
def Ensures (act : Activity α) (results : List String) (s : FileSystem)
    (post : Except String α → List String → FileSystem → Prop) : Prop :=
  ∀ console : Console, console.results = results →
    (act.run.run console).Ensures s fun r s => post r.1 r.2.results s

variable {act : Activity α} {results : List String} {s : FileSystem}
  {post : Except String α → List String → FileSystem → Prop}

theorem Ensures.imp {goal : Except String α → List String → FileSystem → Prop}
    (h : act.Ensures results s post) (himp : ∀ r results s, post r results s → goal r results s) :
    act.Ensures results s goal := by
  intro console hconsole
  exact (h console hconsole).imp fun r s => himp r.1 r.2.results s

theorem ensures_pure {a : α} (h : post (.ok a) results s) :
    (pure a : Activity α).Ensures results s post := by
  intro console hconsole
  rw [← hconsole] at h
  exact h

theorem ensures_throw {e : String} (h : post (.error e) results s) :
    (throw e : Activity α).Ensures results s post := by
  intro console hconsole
  rw [← hconsole] at h
  exact h

/-- One activity and then another one, unless the first one fails. -/
theorem Ensures.bind {f : α → Activity β} {goal : Except String β → List String → FileSystem → Prop}
    (h : act.Ensures results s fun r results s => match r with
      | .ok a => (f a).Ensures results s goal
      | .error e => goal (.error e) results s) :
    (act >>= f).Ensures results s goal := by
  intro console hconsole
  apply Session.Ensures.bind
  apply (h console hconsole).imp
  rintro ⟨r, console'⟩ s' hr
  cases r with
  | ok a => exact hr console' rfl
  | error e => exact hr

/-- One activity, and another one if the first one fails. -/
theorem Ensures.tryCatch {handler : String → Activity α}
    (h : act.Ensures results s fun r results s => match r with
      | .ok a => post (.ok a) results s
      | .error e => (handler e).Ensures results s post) :
    (tryCatch act handler).Ensures results s post := by
  intro console hconsole
  apply Session.Ensures.bind
  apply (h console hconsole).imp
  rintro ⟨r, console'⟩ s' hr
  cases r with
  | ok a => exact hr
  | error e => exact hr console' rfl

theorem ensures_get {post : Except String Console → List String → FileSystem → Prop}
    (h : ∀ console, post (.ok console) results s) :
    (get : Activity Console).Ensures results s post := by
  intro console hconsole
  rw [← hconsole] at h
  exact h console

theorem ensures_modify {f : Console → Console}
    {post : Except String Unit → List String → FileSystem → Prop} {after : List String}
    (hafter : ∀ console, console.results = results → (f console).results = after)
    (h : post (.ok ()) after s) : (modify f : Activity Unit).Ensures results s post := by
  intro console hconsole
  rw [← hafter console hconsole] at h
  exact h

section Saying

variable {post : Except String Unit → List String → FileSystem → Prop} {text : String}

theorem ensures_say (h : post (.ok ()) (text :: results) s) :
    (say text).Ensures results s post := by
  apply ensures_modify _ h
  rintro console rfl
  rfl

theorem ensures_report (h : post (.ok ()) results s) : (report text).Ensures results s post := by
  apply ensures_modify _ h
  intro console hconsole
  exact hconsole

theorem ensures_forM_report {γ : Type} {message : γ → String} {items : List γ}
    (h : post (.ok ()) results s) :
    (items.forM fun a => report (message a) : Activity Unit).Ensures results s post := by
  induction items with
  | nil => exact ensures_pure h
  | cons a items ih => exact Ensures.bind (ensures_report ih)

end Saying

/-- Keeping a log only adds reports. How much the log keeps is not known. -/
theorem ensures_noting {f : Log → α × Log}
    (h : ∀ limit, post (.ok (f (.empty limit)).1) results s) :
    (noting f).Ensures results s post := by
  apply Ensures.bind
  apply ensures_get
  intro console
  apply Ensures.bind
  exact ensures_forM_report (ensures_pure (h console.limit))

/-- What a session ensures, requesting it does. -/
theorem ensures_request {session : Session α}
    (h : session.Ensures s fun a s => post (.ok a) results s) :
    (request session).Ensures results s post := by
  intro console hconsole
  apply Session.Ensures.bind
  apply Session.Ensures.bind
  rw [← hconsole] at h
  exact h

theorem ensures_readFile {path : String}
    {post : Except String (Except FileError (List UInt8)) → List String → FileSystem → Prop}
    (h : post (.ok (s.find path)) results s) :
    (request (.read path .done)).Ensures results s post :=
  ensures_request h

theorem ensures_saveFile {path text : String}
    {post : Except String (Except FileError Unit) → List String → FileSystem → Prop}
    (h : match s.put path text with
      | .error e => post (.ok (.error e)) results s
      | .ok s => post (.ok (.ok ())) results s) :
    (request (.save path text .done)).Ensures results s post := by
  apply ensures_request
  rw [Session.ensures_save_iff]
  refine ⟨fun e hput => ?_, fun s' hput => ?_⟩
  · rw [hput] at h
    exact h
  · rw [hput] at h
    exact h

theorem ensures_now {post : Except String Duration → List String → FileSystem → Prop}
    (h : ∀ d, post (.ok d) results s) : now.Ensures results s post :=
  ensures_request h

/-- Timing a part of a command makes no difference to what it ensures. -/
theorem Ensures.timed {name : String} (h : act.Ensures results s post) :
    (timed name act).Ensures results s post := by
  apply Ensures.bind
  apply ensures_now
  intro start
  apply Ensures.tryCatch
  apply Ensures.bind
  apply h.imp
  intro r results s hr
  cases r with
  | ok a =>
      -- After the part only the clock is read, and the timing of the console changes.
      apply Ensures.bind
      apply ensures_now
      intro stop
      apply Ensures.bind
      apply ensures_get
      intro console
      apply Ensures.bind
      apply ensures_noting
      intro limit
      apply Ensures.bind
      have hend : (pure a : Activity α).Ensures results s post := ensures_pure hr
      refine ensures_modify ?_ hend
      intro console hconsole
      exact hconsole
  | error e =>
      -- The failure is noted and then thrown again.
      apply Ensures.bind
      apply ensures_noting
      intro limit
      exact ensures_throw hr

end Activity

end Tool

end WordAutomata
