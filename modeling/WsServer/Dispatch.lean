import WsServer.CanPrefix

/-! Which handler of `command_handle_text` takes a text: the handlers tell the texts
apart by words of which none is a prefix of another, but for `WIGGLE`. -/
namespace WsServer
open Interaction

theorem hasPrefix_iff {word : String} {text : CText} :
    hasPrefix word text = true ↔ word.toList <+: text := List.isPrefixOf_iff_prefix

/-- A text begins with one of two words that do not begin with each other. -/
theorem hasPrefix_other {word word' : String} {text : CText} (h : hasPrefix word text = true)
    (hword : ¬ word.toList <+: word'.toList ∧ ¬ word'.toList <+: word.toList) :
    hasPrefix word' text = false := by
  rw [← Bool.not_eq_true, hasPrefix_iff]
  intro h'
  rcases List.prefix_or_prefix_of_prefix (hasPrefix_iff.mp h) h' with hpre | hpre
  · exact hword.1 hpre
  · exact hword.2 hpre

theorem ne_of_hasPrefix {word : String} {text text' : CText} (h : hasPrefix word text = true)
    (h' : hasPrefix word text' = false) : text ≠ text' := by
  intro heq
  rw [heq, h'] at h
  cases h

theorem hasPrefix_wiggle {text : CText} (h : hasPrefix "WIGGLE_STOP" text = true) :
    hasPrefix "WIGGLE" text = true := by
  have hword : "WIGGLE".toList <+: "WIGGLE_STOP".toList := by decide
  exact hasPrefix_iff.mpr (hword.trans (hasPrefix_iff.mp h))

theorem not_readToggle_of_word {word : String} {text : CText}
    (h : hasPrefix word (stripCanPrefix text) = true)
    (hword : ∀ toggle ∈ ["READ-DISABLE".toList, "READ-ENABLE".toList],
      hasPrefix word (stripCanPrefix toggle) = false) : ¬ IsReadToggle text := by
  rintro (rfl | rfl)
  · rw [hword _ (by simp)] at h
    cases h
  · rw [hword _ (by simp)] at h
    cases h

/-! ### Handlers that pass a text on -/

theorem handleAbort_other (client : Client) {text : CText} (h : text ≠ "ABORT#8765".toList) :
    handleAbort client text = pure false := if_pos h

theorem handleStateCommand_other (client : Client) {text : CText}
    (h : hasPrefix "STATE#" text = false) : handleStateCommand client text = pure false := by
  rw [handleStateCommand, h]
  rfl

theorem handleSetValve_other (client : Client) {text : CText}
    (h : hasPrefix "SET_VALVE" text = false) : handleSetValve client text = pure false := by
  rw [handleSetValve, h]
  rfl

theorem handleWiggleStop_other (client : Client) {text : CText}
    (h : hasPrefix "WIGGLE_STOP" text = false) : handleWiggleStop client text = pure false := by
  rw [handleWiggleStop, h]
  rfl

theorem handleWiggle_other (client : Client) {text : CText}
    (h : hasPrefix "WIGGLE" text = false) : handleWiggle client text = pure false := by
  rw [handleWiggle, h]
  rfl

theorem handleDrown_other (client : Client) {text : CText} (h : text ≠ "DROWN#8765".toList) :
    handleDrown client text = pure false := if_pos h

theorem handleFire_other (client : Client) {text : CText}
    (h : hasPrefix "FIRE#8765" text = false) : handleFire client text = pure false := by
  rw [handleFire, h]
  rfl

/-! ### The dispatcher of real mode -/

/-- No testing mode and not read only. -/
def realMode : AppConfig := ⟨false, false⟩

/-- A process in a state, with no client, no wiggle and no sequence. -/
def idleProcess (state : AppState) : Process :=
  ⟨{ appContextInit realMode 3 with state := state }, []⟩

/-- Everything that can fail succeeds. -/
def luckyEnv : Env := ⟨0, fun _ => none, true, true⟩

/-- A text that none of the first three handlers takes gets to the ones that copy it. -/
theorem dispatch_copyHandlers (client : Client) {text : CText}
    (habort : text ≠ "ABORT#8765".toList) (hstate : hasPrefix "STATE#" text = false)
    (hset : hasPrefix "SET_VALVE" text = false) :
    dispatch realMode client text = copyHandlers client text := by
  change (handleAbort client text >>= _) = _
  rw [handleAbort_other client habort, Program.pure_eq, Program.ret_bind,
    if_neg Bool.false_ne_true, handleStateCommand_other client hstate, Program.pure_eq,
    Program.ret_bind, if_neg Bool.false_ne_true, handleSetValve_other client hset,
    Program.pure_eq, Program.ret_bind, if_neg Bool.false_ne_true]

/-- A text without the words of `WIGGLE` and `WIGGLE_STOP` gets to the gate. -/
theorem copyHandlers_hotfire (client : Client) {text : CText}
    (hwiggle : hasPrefix "WIGGLE" text = false) :
    copyHandlers client text = act .allocate >>= fun copied =>
      if !copied then sendReply client "Server error: out of memory"
      else hotfireHandlers client text := by
  have hstop : hasPrefix "WIGGLE_STOP" text = false := by
    by_contra hstop
    rw [hasPrefix_wiggle ((Bool.not_eq_false _).mp hstop)] at hwiggle
    cases hwiggle
  unfold copyHandlers
  refine congrArg (fun f => act .allocate >>= f) (funext (fun copied => ?_))
  rw [handleWiggleStop_other client hstop, Program.pure_eq, Program.ret_bind,
    if_neg Bool.false_ne_true, handleWiggle_other client hwiggle, Program.pure_eq,
    Program.ret_bind, if_neg Bool.false_ne_true]

end WsServer
