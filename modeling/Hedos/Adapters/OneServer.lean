import Hedos.Adapters.LlamaPool
import Hedos.Lib.Transition

/-!
# One server for each model

* `SlotOk` is what holds of one slot: its running server is one launched for the model, so is the
  one its holder has in hand, a window is stored only for the chat server last made ready there,
  and every live server of the model is one of the two; `SlotOk.move` keeps it over each place of
  `ensure`;
* a `base_url` that returns names a server launched for what it wanted, and `resident_window`
  answers with a window of the slot (`PoolOk`, `windowAnswer_of_ok`);
* a model gets a second live server exactly when one is spawned beside the live one that is still
  in the slot (`Pool.spawnsBeside`).
-/

namespace Hedos.Adapters

open Function

/-! ## Servers -/

/-- The process `process` was launched so. -/
def Serves (servers : List Server) (process : ℕ) (modelId : String) (sees : Bool)
    (mode : ServerMode) (window : ℤ) (port : ℕ) : Prop :=
  ∃ server, servers[process]? = some server ∧ server.modelId = modelId ∧ server.sees = sees ∧
    server.launch.mode = mode ∧ server.launch.contextTokens = window ∧
    server.launch.port = port

/-- `url` is that of a server that was launched for the model, in the mode and the sight wanted
and with a window that is large enough. -/
def Names (servers : List Server) (wanted : Wanted) (url : String) : Prop :=
  ∃ process window port, Serves servers process wanted.modelId wanted.sight wanted.mode window
    port ∧ wanted.contextTokens ≤ window ∧ urlOf port = url

/-- Servers stop and are started for `modelId` only. -/
structure Extends (modelId : String) (servers servers' : List Server) : Prop where
  keeps : ∀ (i : ℕ) server, servers[i]? = some server →
    ∃ alive, servers'[i]? = some { server with alive := alive } ∧
      (alive = true → server.alive = true)
  adds : ∀ (i : ℕ) server, servers'[i]? = some server → servers[i]? = none →
    server.modelId = modelId

section

variable {servers servers' : List Server} {modelId : String} {slot : Slot} {holder : Holder}
  {process : ℕ}

theorem Extends.refl (modelId : String) (servers : List Server) :
    Extends modelId servers servers :=
  ⟨fun _ server h => ⟨server.alive, h, id⟩, fun i server h h' => by simp [h] at h'⟩

theorem getElem?_stop (servers : List Server) (process i : ℕ) :
    (stop servers process)[i]? =
      servers[i]?.map fun server => if process = i then { server with alive := false }
        else server := by
  rw [stop, List.getElem?_modify]
  split
  · simp_all
  · simp_all

theorem extends_stop (modelId : String) (servers : List Server) (process : ℕ) :
    Extends modelId servers (stop servers process) := by
  refine ⟨fun i server h => ?_, fun i server h h' => ?_⟩
  · rw [getElem?_stop, h, Option.map_some]
    by_cases hi : process = i
    · exact ⟨false, by rw [if_pos hi], nofun⟩
    · exact ⟨server.alive, by rw [if_neg hi], id⟩
  · rw [getElem?_stop, h'] at h
    cases h

theorem extends_drop (modelId : String) (servers : List Server) (slot : Slot) :
    Extends modelId servers (slot.drop servers) := by
  rw [Slot.drop]
  split
  · exact extends_stop _ _ _
  · exact Extends.refl _ _

theorem extends_append (servers : List Server) (server : Server) :
    Extends server.modelId servers (servers ++ [server]) := by
  refine ⟨fun i old h => ⟨old.alive, ?_, id⟩, fun i new h h' => ?_⟩
  · exact List.getElem?_append_left (List.getElem?_eq_some_iff.1 h).1 ▸ h
  · rcases Lists.getElem?_concat_cases h with h | ⟨-, rfl⟩
    · simp [h] at h'
    · rfl

theorem Serves.extends {sees : Bool} {mode : ServerMode} {window : ℤ} {port : ℕ} {m : String}
    (h : Serves servers process m sees mode window port) (hext : Extends modelId servers servers') :
    Serves servers' process m sees mode window port := by
  obtain ⟨server, hserver, hrest⟩ := h
  obtain ⟨alive, halive, -⟩ := hext.keeps process server hserver
  exact ⟨_, halive, hrest⟩

theorem Names.extends {wanted : Wanted} {url : String} (h : Names servers wanted url)
    (hext : Extends modelId servers servers') : Names servers' wanted url := by
  obtain ⟨process, window, port, hserves, hrest⟩ := h
  exact ⟨process, window, port, hserves.extends hext, hrest⟩

/-- A live server that is not new was live. -/
theorem Extends.alive (h : Extends modelId servers servers') {i : ℕ} {server server' : Server}
    (hold : servers[i]? = some server) (hnew : servers'[i]? = some server')
    (halive : server'.alive = true) :
    server.alive = true ∧ server'.modelId = server.modelId := by
  obtain ⟨alive, hkept, hwas⟩ := h.keeps i server hold
  rw [hnew, Option.some.injEq] at hkept
  subst hkept
  exact ⟨hwas halive, rfl⟩

end

/-! ## A slot -/

/-- What holds where the holder stands. -/
def PlaceOk (servers : List Server) (slot : Slot) (wanted : Wanted) : Place → Prop
  | .check | .clear => True
  | .probe _ => ∃ running, slot.server = some running ∧ running.mode = wanted.mode ∧
      running.sees = wanted.sight ∧ wanted.contextTokens ≤ running.contextTokens
  | .prepare _ _ | .pick _ | .spawn _ _ | .failed _ _ _ => slot.chatWindow = 0
  | .await _ port process => slot.chatWindow = 0 ∧
      Serves servers process wanted.modelId wanted.sight wanted.mode wanted.contextTokens port ∧
      ∀ running, slot.server = some running → running.process ≠ process
  | .store port process => slot.chatWindow = 0 ∧ slot.lastReady = some process ∧
      Serves servers process wanted.modelId wanted.sight wanted.mode wanted.contextTokens port ∧
      ∀ running, slot.server = some running → running.process ≠ process
  | .fill port process => slot.lastReady = some process ∧
      Serves servers process wanted.modelId wanted.sight wanted.mode wanted.contextTokens port ∧
      ∀ running, slot.server = some running → running.process ≠ process

/-- The running server's record is that of its launch. -/
def RunningOk (servers : List Server) (modelId : String) (running : Running) : Prop :=
  ∃ port, urlOf port = running.baseUrl ∧ Serves servers running.process modelId running.sees
    running.mode running.contextTokens port

/-- A window is that of the chat server last made ready in the slot. -/
def LastChatWindow (servers : List Server) (modelId : String) (slot : Slot) (window : ℤ) : Prop :=
  ∃ process sees port, slot.lastReady = some process ∧
    Serves servers process modelId sees .chat window port

structure SlotOk (servers : List Server) (modelId : String) (slot : Slot) : Prop where
  server : ∀ running, slot.server = some running → RunningOk servers modelId running
  holder : ∀ holder, slot.holder = some holder →
    holder.wanted.modelId = modelId ∧ PlaceOk servers slot holder.wanted holder.place
  window : slot.chatWindow = 0 ∨ LastChatWindow servers modelId slot slot.chatWindow
  live : ∀ (i : ℕ) server, servers[i]? = some server → server.modelId = modelId →
    server.alive = true → (∃ running, slot.server = some running ∧ running.process = i) ∨
      ∃ holder, slot.holder = some holder ∧ holder.place.inHand = some i

section

variable {servers servers' : List Server} {modelId : String} {slot slot' : Slot}
  {holder : Holder} {place : Place} {answer : Answer}
  {result : Option (Except RuntimeError String)}

variable {wanted : Wanted} {running : Running} {window : ℤ} {process : ℕ}

theorem PlaceOk.extends (h : PlaceOk servers slot wanted place)
    (hext : Extends modelId servers servers') : PlaceOk servers' slot wanted place := by
  cases place with
  | check | clear | probe | prepare | pick | spawn | failed => exact h
  | await attempt port process => exact ⟨h.1, h.2.1.extends hext, h.2.2⟩
  | store port process => exact ⟨h.1, h.2.1, h.2.2.1.extends hext, h.2.2.2⟩
  | fill port process => exact ⟨h.1, h.2.1.extends hext, h.2.2⟩

variable {m : String}

theorem RunningOk.extends (h : RunningOk servers modelId running)
    (hext : Extends m servers servers') : RunningOk servers' modelId running := by
  obtain ⟨port, hurl, hserves⟩ := h
  exact ⟨port, hurl, hserves.extends hext⟩

theorem LastChatWindow.extends
    (h : LastChatWindow servers modelId slot window) (hext : Extends m servers servers') :
    LastChatWindow servers' modelId slot window := by
  obtain ⟨process, sees, port, hlast, hserves⟩ := h
  exact ⟨process, sees, port, hlast, hserves.extends hext⟩

/-- A slot is not touched by the servers of another model, nor by one that stops. -/
theorem SlotOk.extends (h : SlotOk servers modelId slot)
    (hext : Extends m servers servers')
    (hold : ∀ (i : ℕ) server, servers'[i]? = some server → server.modelId = modelId →
      ∃ old, servers[i]? = some old) : SlotOk servers' modelId slot := by
  refine ⟨fun running hr => (h.server running hr).extends hext, fun holder hh => ?_, ?_, ?_⟩
  · exact ⟨(h.holder holder hh).1, (h.holder holder hh).2.extends hext⟩
  · exact h.window.imp_right fun hw => hw.extends hext
  · intro i server hserver hmodel halive
    obtain ⟨old, hold⟩ := hold i server hserver hmodel
    obtain ⟨hwas, hid⟩ := hext.alive hold hserver halive
    exact h.live i old hold (hid ▸ hmodel) hwas

/-- A live server of the model is the slot's or in the hand of its holder. -/
theorem SlotOk.live_cases (h : SlotOk servers modelId slot) (hholder : slot.holder = some holder)
    {i : ℕ} {server : Server} (hserver : servers[i]? = some server)
    (hmodel : server.modelId = modelId) (halive : server.alive = true) :
    (∃ running, slot.server = some running ∧ running.process = i) ∨
      holder.place.inHand = some i := by
  rcases h.live i server hserver hmodel halive with hin | ⟨found, hfound, hin⟩
  · exact .inl hin
  · rw [hholder, Option.some.injEq] at hfound
    exact .inr (hfound ▸ hin)

/-- The holder goes on with what it had in hand, and may change the window. -/
theorem SlotOk.change (h : SlotOk servers modelId slot) (hholder : slot.holder = some holder)
    (hhand : place.inHand = holder.place.inHand) {lastReady : Option ℕ}
    (hplace : PlaceOk servers { slot with chatWindow := window, lastReady := lastReady }
      holder.wanted place)
    (hwindow : window = 0 ∨ LastChatWindow servers modelId
      { slot with chatWindow := window, lastReady := lastReady } window) :
    SlotOk servers modelId
      ({ slot with chatWindow := window, lastReady := lastReady }.goto holder place) := by
  refine ⟨h.server, fun holder' hh => ?_, hwindow, fun i server hserver hmodel halive => ?_⟩
  · cases hh
    refine ⟨(h.holder holder hholder).1, ?_⟩
    cases place <;> exact hplace
  · rcases h.live_cases hholder hserver hmodel halive with hin | hin
    · exact .inl hin
    · exact .inr ⟨_, rfl, hhand.trans hin⟩

theorem SlotOk.goto (h : SlotOk servers modelId slot) (hholder : slot.holder = some holder)
    (hhand : place.inHand = holder.place.inHand)
    (hplace : PlaceOk servers slot holder.wanted place) :
    SlotOk servers modelId (slot.goto holder place) :=
  h.change hholder hhand hplace h.window

/-- The holder lets go of the lock with nothing in hand. -/
theorem SlotOk.leave (h : SlotOk servers modelId slot) (hholder : slot.holder = some holder)
    (hhand : holder.place.inHand = none) : SlotOk servers modelId slot.leave := by
  refine ⟨h.server, fun holder' hh => ?_, h.window, fun i server hserver hmodel halive => ?_⟩
  · cases hh
  · rcases h.live_cases hholder hserver hmodel halive with hin | hin
    · exact .inl hin
    · rw [hhand] at hin
      cases hin

/-- The holder's process stops, and the holder goes on with nothing in hand. -/
theorem SlotOk.stopped (h : SlotOk servers modelId slot) (hholder : slot.holder = some holder)
    (hhand : holder.place.inHand = some process) (holder' : Option Holder)
    (hnext : ∀ next, holder' = some next → next.wanted = holder.wanted ∧
      next.place.inHand = none ∧ PlaceOk (stop servers process) slot next.wanted next.place) :
    SlotOk (stop servers process) modelId { slot with holder := holder' } := by
  have hext := extends_stop modelId servers process
  refine ⟨fun running hr => (h.server running hr).extends hext, fun next hn => ?_, ?_, ?_⟩
  · obtain ⟨hwanted, -, hplace⟩ := hnext next hn
    refine ⟨hwanted ▸ (h.holder holder hholder).1, ?_⟩
    cases hat : next.place <;> (rw [hat] at hplace; exact hplace)
  · exact h.window.imp_right fun hw => hw.extends hext
  · intro i server hserver hmodel halive
    rw [getElem?_stop, Option.map_eq_some_iff] at hserver
    obtain ⟨old, hold, rfl⟩ := hserver
    by_cases hi : process = i
    · simp [hi] at halive
    rw [if_neg hi] at hmodel halive
    rcases h.live_cases hholder hold hmodel halive with hin | hin
    · exact .inl hin
    · rw [hhand, Option.some.injEq] at hin
      exact (hi hin).elim

/-- A server is spawned beside the one in the slot. -/
theorem SlotOk.spawned (h : SlotOk servers modelId slot) (hholder : slot.holder = some holder)
    (hhand : holder.place.inHand = none) (hwindow : slot.chatWindow = 0) (attempt : Attempt)
    (port : ℕ) :
    SlotOk (servers ++ [Slot.launched holder.wanted attempt port]) modelId
      (slot.goto holder (.await attempt port servers.length)) := by
  have hmodel := (h.holder holder hholder).1
  have hext := extends_append servers (Slot.launched holder.wanted attempt port)
  have hold : ∀ running, slot.server = some running → running.process ≠ servers.length := by
    intro running hr hlength
    obtain ⟨port, -, server, hserver, -⟩ := h.server running hr
    rw [hlength, List.getElem?_eq_none (le_refl _)] at hserver
    cases hserver
  refine ⟨fun running hr => (h.server running hr).extends hext, fun next hn => ?_, ?_, ?_⟩
  · cases hn
    refine ⟨hmodel, hwindow, ?_, hold⟩
    exact ⟨_, by rw [List.getElem?_concat_length], rfl, rfl, rfl, rfl, rfl⟩
  · exact .inl hwindow
  · intro i server hserver hid halive
    rcases Lists.getElem?_concat_cases hserver with hserver | ⟨rfl, -⟩
    · rcases h.live_cases hholder hserver hid halive with hin | hin
      · exact .inl hin
      · rw [hhand] at hin
        cases hin
    · exact .inr ⟨_, rfl, rfl⟩

/-- The process in hand takes the place of the slot's. -/
theorem SlotOk.filled (h : SlotOk servers modelId slot) (hholder : slot.holder = some holder)
    {port : ℕ} (hplace : holder.place = .fill port process) (running : Running)
    (hrunning : RunningOk servers modelId running) (hprocess : running.process = process) :
    SlotOk (slot.drop servers) modelId { slot with server := some running }.leave := by
  have hext := extends_drop modelId servers slot
  have hhand : holder.place.inHand = some process := by rw [hplace]; rfl
  refine ⟨fun next hr => ?_, fun next hn => ?_, h.window.imp_right fun hw => hw.extends hext, ?_⟩
  · cases hr
    exact hrunning.extends hext
  · cases hn
  · intro i server hserver hid halive
    refine .inl ⟨running, rfl, ?_⟩
    rw [Slot.drop] at hserver
    cases hslot : slot.server with
    | none =>
      rw [hslot] at hserver
      rcases h.live_cases hholder hserver hid halive with ⟨old, hold, -⟩ | hin
      · rw [hslot] at hold
        cases hold
      · rw [hhand, Option.some.injEq] at hin
        rw [hprocess, hin]
    | some old =>
      rw [hslot] at hserver
      simp only [getElem?_stop, Option.map_eq_some_iff] at hserver
      obtain ⟨was, hwas, rfl⟩ := hserver
      by_cases hi : old.process = i
      · simp [hi] at halive
      rw [if_neg hi] at hid halive
      rcases h.live_cases hholder hwas hid halive with ⟨found, hfound, hin⟩ | hin
      · rw [hslot, Option.some.injEq] at hfound
        subst hfound
        exact (hi hin).elim
      · rw [hhand, Option.some.injEq] at hin
        rw [hprocess, hin]

/-- What a move of the holder comes to. -/
structure MovedOk (modelId : String) (servers : List Server) (holder : Holder) (moved : Moved) :
    Prop where
  grows : Extends modelId servers moved.1
  slot : SlotOk moved.1 modelId moved.2.1
  names : ∀ url, moved.2.2 = some (.ok url) → Names moved.1 holder.wanted url
  stays : moved.2.2 = none → ∃ place, moved.2.1.holder = some { holder with place := place }
  leaves : moved.2.2 ≠ none → moved.2.1.holder = none

theorem MovedOk.goto (h : SlotOk servers' modelId (slot.goto holder place))
    (hext : Extends modelId servers servers') :
    MovedOk modelId servers holder (servers', slot.goto holder place, none) where
  grows := hext
  slot := h
  names := fun _ hurl => by cases hurl
  stays := fun _ => ⟨place, rfl⟩
  leaves := fun hresult => (hresult rfl).elim

theorem MovedOk.fails (h : SlotOk servers modelId slot.leave) (error : RuntimeError) :
    MovedOk modelId servers holder (servers, slot.leave, some (.error error)) where
  grows := Extends.refl _ _
  slot := h
  names := fun _ hurl => by cases hurl
  stays := nofun
  leaves := fun _ => rfl

theorem MovedOk.returns (h : SlotOk servers' modelId slot')
    (hext : Extends modelId servers servers') (hholder : slot'.holder = none) {url : String}
    (hnames : Names servers' holder.wanted url) :
    MovedOk modelId servers holder (servers', slot', some (.ok url)) where
  grows := hext
  slot := h
  names := fun _ hurl => by cases hurl; exact hnames
  stays := nofun
  leaves := fun _ => hholder

theorem Slot.fits_eq_true (h : Slot.fits servers running wanted = true) :
    running.mode = wanted.mode ∧ running.sees = wanted.sight ∧
      wanted.contextTokens ≤ running.contextTokens := by
  simp only [Slot.fits, Bool.and_eq_true, beq_iff_eq, decide_eq_true_eq] at h
  exact ⟨h.1.1.2, h.1.2, h.2⟩

theorem placeOk_afterFailure (servers : List Server) (wanted : Wanted) {attempt : Attempt}
    {error : RuntimeError} {taken gone goneNext : Bool} (hwindow : slot.chatWindow = 0)
    (h : Slot.afterFailure attempt error taken gone goneNext = some place) :
    place.inHand = none ∧ PlaceOk servers slot wanted place := by
  simp only [Slot.afterFailure] at h
  split at h
  · cases h
    exact ⟨rfl, hwindow⟩
  · split at h
    · cases h
      exact ⟨rfl, hwindow⟩
    · cases h

theorem SlotOk.move {moved : Moved} (h : SlotOk servers modelId slot)
    (hholder : slot.holder = some holder) (hmove : slot.move servers holder answer = some moved) :
    MovedOk modelId servers holder moved := by
  have hrefl := Extends.refl modelId servers
  obtain ⟨hmodel, hat⟩ := h.holder holder hholder
  unfold Slot.move at hmove
  split at hmove
  · rename_i hplace
    cases hmove
    refine MovedOk.goto (h.goto hholder ?_ ?_) hrefl
    · rw [hplace]
      split <;> rfl
    · split
      · rename_i hfit
        obtain ⟨running, hrunning, hfits⟩ := (Option.any_eq_true _ _).1 hfit
        exact ⟨running, hrunning, Slot.fits_eq_true hfits⟩
      · trivial
  · rename_i again ok hplace
    rw [hplace] at hat
    obtain ⟨running, hrunning, hmode, hsees, hwindow⟩ := hat
    rw [hrunning, Option.bind_some] at hmove
    split at hmove
    · cases hmove
      obtain ⟨port, hurl, hserves⟩ := h.server running hrunning
      rw [hsees, hmode, ← hmodel] at hserves
      exact MovedOk.returns (h.leave hholder (by rw [hplace]; rfl)) hrefl rfl
        ⟨running.process, running.contextTokens, port, hserves, hwindow, hurl⟩
    · cases hmove
      refine MovedOk.goto (h.goto hholder ?_ ?_) hrefl
      · rw [hplace]
        split <;> rfl
      · split
        · trivial
        · exact ⟨running, hrunning, hmode, hsees, hwindow⟩
  · rename_i path hplace
    cases hmove
    exact MovedOk.goto (h.change hholder (by rw [hplace]; rfl) rfl (.inl rfl)) hrefl
  · rename_i projector retried result hplace
    rw [hplace] at hat
    split at hmove
    · cases hmove
      exact MovedOk.fails (h.leave hholder (by rw [hplace]; rfl)) _
    · cases hmove
      exact MovedOk.goto (h.goto hholder (by rw [hplace]; rfl) hat) hrefl
  · rename_i attempt result hplace
    rw [hplace] at hat
    split at hmove
    · cases hmove
      exact MovedOk.fails (h.leave hholder (by rw [hplace]; rfl)) _
    · cases hmove
      exact MovedOk.goto (h.goto hholder (by rw [hplace]; rfl) hat) hrefl
  · rename_i attempt port error hplace
    rw [hplace] at hat
    split at hmove
    · cases hmove
      exact MovedOk.goto (h.goto hholder (by rw [hplace]; rfl) hat) hrefl
    · cases hmove
      have hnone : holder.place.inHand = none := by rw [hplace]; rfl
      refine MovedOk.goto (h.spawned hholder hnone hat attempt port) ?_
      exact hmodel ▸ extends_append servers (Slot.launched holder.wanted attempt port)
  · rename_i attempt port process hplace
    rw [hplace] at hat
    cases hmove
    exact MovedOk.goto (h.change hholder (by rw [hplace]; rfl) ⟨hat.1, rfl, hat.2⟩
      (.inl hat.1)) hrefl
  · rename_i attempt port process killed hplace
    rw [hplace] at hat
    split at hmove
    · cases hmove
    · cases hmove
      refine MovedOk.goto (h.stopped hholder (by rw [hplace]; rfl) _ fun next hn => ?_)
        (extends_stop _ _ _)
      cases hn
      exact ⟨rfl, rfl, hat.1⟩
  · rename_i attempt port process hplace
    rw [hplace] at hat
    cases hmove
    refine MovedOk.goto (h.stopped hholder (by rw [hplace]; rfl) _ fun next hn => ?_)
      (extends_stop _ _ _)
    cases hn
    exact ⟨rfl, rfl, hat.1⟩
  · rename_i attempt port error taken gone goneNext hplace
    rw [hplace] at hat
    split at hmove
    · rename_i place hnext
      cases hmove
      obtain ⟨hhand, hok⟩ := placeOk_afterFailure servers holder.wanted hat hnext
      exact MovedOk.goto (h.goto hholder (by rw [hhand, hplace]; rfl) hok) hrefl
    · cases hmove
      exact MovedOk.fails (h.leave hholder (by rw [hplace]; rfl)) _
  · rename_i port process hplace
    rw [hplace] at hat
    obtain ⟨hwindow, hlast, hserves, hother⟩ := hat
    cases hmove
    refine MovedOk.goto (h.change hholder (by rw [hplace]; rfl) ⟨hlast, hserves, hother⟩ ?_) hrefl
    split
    · rename_i hchat
      rw [hchat, hmodel] at hserves
      exact .inr ⟨process, _, port, hlast, hserves⟩
    · exact .inl rfl
  · rename_i port process hplace
    rw [hplace] at hat
    obtain ⟨hlast, hserves, hother⟩ := hat
    cases hmove
    rw [hmodel] at hserves
    refine MovedOk.returns (h.filled hholder hplace _ ⟨port, rfl, hserves⟩ rfl)
      (extends_drop _ _ _) rfl ?_
    rw [← hmodel] at hserves
    have hserves' := hserves.extends (extends_drop modelId servers slot)
    exact ⟨process, _, port, hserves', Int.le_refl _, rfl⟩
  · cases hmove

theorem SlotOk.abandon {servers' : List Server} {left : Slot} (h : SlotOk servers modelId slot)
    (hholder : slot.holder = some holder)
    (habandon : slot.abandon servers holder.place = some (servers', left)) :
    Extends modelId servers servers' ∧ SlotOk servers' modelId left ∧ left.holder = none := by
  have hrefl := Extends.refl modelId servers
  unfold Slot.abandon at habandon
  split at habandon
  · rename_i again hplace
    cases habandon
    exact ⟨hrefl, h.leave hholder (by rw [hplace]; rfl), rfl⟩
  · rename_i projector retried hplace
    cases habandon
    exact ⟨hrefl, h.leave hholder (by rw [hplace]; rfl), rfl⟩
  · rename_i attempt port process hplace
    cases habandon
    refine ⟨extends_stop _ _ _, ?_, rfl⟩
    exact h.stopped hholder (by rw [hplace]; rfl) none fun next hn => by cases hn
  · cases habandon

/-- The slot's server is dropped while nobody holds the lock. -/
theorem SlotOk.evicted (h : SlotOk servers modelId slot) (hholder : slot.holder = none) :
    SlotOk (slot.drop servers) modelId { slot with server := none } := by
  have hext := extends_drop modelId servers slot
  refine ⟨fun running hr => (by cases hr), fun holder hh => ?_,
    h.window.imp_right fun hw => hw.extends hext, fun i server hserver hid halive => ?_⟩
  · simp only [hholder] at hh
    cases hh
  · rw [Slot.drop] at hserver
    cases hslot : slot.server with
    | none =>
      rw [hslot] at hserver
      simpa [hslot, hholder] using h.live i server hserver hid halive
    | some old =>
      rw [hslot] at hserver
      simp only [getElem?_stop, Option.map_eq_some_iff] at hserver
      obtain ⟨was, hwas, rfl⟩ := hserver
      by_cases hi : old.process = i
      · simp [hi] at halive
      rw [if_neg hi] at hid halive
      have hlive := h.live i was hwas hid halive
      simp [hslot, hholder, hi] at hlive

/-- The window may be cleared by anybody. -/
theorem SlotOk.cleared (h : SlotOk servers modelId slot) :
    SlotOk servers modelId { slot with chatWindow := 0 } := by
  refine ⟨h.server, fun holder hh => ?_, .inl rfl, h.live⟩
  obtain ⟨hmodel, hat⟩ := h.holder holder hh
  refine ⟨hmodel, ?_⟩
  cases hplace : holder.place with
  | check | clear | prepare | pick | spawn | failed => trivial
  | probe again => rw [hplace] at hat; exact hat
  | await attempt port process => rw [hplace] at hat; exact ⟨rfl, hat.2⟩
  | store port process => rw [hplace] at hat; exact ⟨rfl, hat.2⟩
  | fill port process => rw [hplace] at hat; exact hat

end

/-! ## The pool -/

/-- What holds of the pool in every state. -/
structure PoolOk (pool : Pool) : Prop where
  slots : ∀ modelId, SlotOk pool.servers modelId (pool.slots modelId)
  holding : ∀ modelId holder, (pool.slots modelId).holder = some holder →
    pool.tasks[holder.task]? = some (.baseUrl holder.wanted .holding)
  names : ∀ (i : ℕ) wanted url,
    pool.tasks[i]? = some (.baseUrl wanted (.returned (.ok url))) → Names pool.servers wanted url

section

variable {pool pool' : Pool} {modelId : String} {servers' : List Server} {slot' : Slot}
  {action : Action} {task : ℕ}

theorem poolOk_empty : PoolOk {} where
  slots := fun modelId => by
    refine ⟨fun running hr => ?_, fun holder hh => ?_, .inl rfl, fun i server hserver => ?_⟩
    · cases hr
    · cases hh
    · simp at hserver
  holding := fun modelId holder hh => by cases hh
  names := fun i wanted url h => by simp at h

/-- One slot changes, and the tasks with it. -/
theorem PoolOk.change (h : PoolOk pool) (hext : Extends modelId pool.servers servers')
    (hslot : SlotOk servers' modelId slot') {tasks' : List Task}
    (hother : ∀ modelId' holder, modelId' ≠ modelId →
      (pool.slots modelId').holder = some holder →
      tasks'[holder.task]? = some (.baseUrl holder.wanted .holding))
    (hholder : ∀ holder, slot'.holder = some holder →
      tasks'[holder.task]? = some (.baseUrl holder.wanted .holding))
    (hnames : ∀ (i : ℕ) wanted url,
      tasks'[i]? = some (.baseUrl wanted (.returned (.ok url))) →
      pool.tasks[i]? = some (.baseUrl wanted (.returned (.ok url))) ∨ Names servers' wanted url) :
    PoolOk { servers := servers', slots := update pool.slots modelId slot',
             tasks := tasks' } := by
  refine ⟨fun m => ?_, fun m holder hh => ?_, fun i wanted url hi => ?_⟩
  · by_cases hm : m = modelId
    · subst hm
      simpa using hslot
    · simp only [update_of_ne hm]
      refine (h.slots m).extends hext fun i server hserver hid => ?_
      cases hold : pool.servers[i]? with
      | some old => exact ⟨old, rfl⟩
      | none => exact (hm (hid.symm.trans (hext.adds i server hserver hold))).elim
  · by_cases hm : m = modelId
    · subst hm
      simp only [update_self] at hh
      exact hholder holder hh
    · simp only [update_of_ne hm] at hh
      exact hother m holder hm hh
  · rcases hnames i wanted url hi with hi | hn
    · exact (h.names i wanted url hi).extends hext
    · exact hn

variable {found next : Task}

variable {holder : Holder} {wanted : Wanted} {state : CallState} {answer : Answer} {slot : Slot}

/-- A task that does not hold a lock goes on. -/
theorem PoolOk.tasks_set (h : PoolOk pool) (hfound : pool.tasks[task]? = some found)
    (hnot : ∀ wanted, found ≠ .baseUrl wanted .holding) {m : String}
    (hholder : (pool.slots m).holder = some holder) :
    (pool.tasks.set task next)[holder.task]? = some (.baseUrl holder.wanted .holding) := by
  have hold := h.holding m holder hholder
  have hne : task ≠ holder.task := by
    rintro rfl
    rw [hfound, Option.some.injEq] at hold
    exact hnot _ hold
  rw [List.getElem?_set_ne hne, hold]

theorem names_set {tasks : List Task}
    (hnot : ∀ wanted url, next ≠ .baseUrl wanted (.returned (.ok url))) (i : ℕ) (wanted : Wanted)
    (url : String) (h : (tasks.set task next)[i]? = some (.baseUrl wanted (.returned (.ok url)))) :
    tasks[i]? = some (.baseUrl wanted (.returned (.ok url))) := by
  rcases Lists.getElem?_set_cases h with ⟨-, hnext⟩ | ⟨-, hold⟩
  · exact (hnot wanted url hnext.symm).elim
  · exact hold

theorem PoolOk.call (h : PoolOk pool) {new : Task}
    (hnot : ∀ wanted url, new ≠ .baseUrl wanted (.returned (.ok url))) :
    PoolOk (pool.call new) := by
  refine ⟨h.slots, fun m holder hh => ?_, fun i wanted url hi => ?_⟩
  · have hold := h.holding m holder hh
    rw [Pool.call, List.getElem?_append_left (List.getElem?_eq_some_iff.1 hold).1, hold]
  · rcases Lists.getElem?_concat_cases hi with hi | ⟨-, hnew⟩
    · exact h.names i wanted url hi
    · exact (hnot wanted url hnew.symm).elim

/-- A task that leaves its slot's lock as it is goes on. -/
theorem PoolOk.free (h : PoolOk pool) (hfound : pool.tasks[task]? = some found)
    (hnot : ∀ wanted, found ≠ .baseUrl wanted .holding)
    (hnext : ∀ wanted url, next ≠ .baseUrl wanted (.returned (.ok url)))
    (hext : Extends modelId pool.servers servers') (hslot : SlotOk servers' modelId slot')
    (hholder : slot'.holder = (pool.slots modelId).holder) :
    PoolOk (({ pool with servers := servers' }.setSlot modelId slot').setTask task next) := by
  refine h.change hext hslot (fun m holder _ hh => h.tasks_set hfound hnot hh)
    (fun holder hh => ?_) fun i wanted url hi => .inl (names_set hnext i wanted url hi)
  rw [hholder] at hh
  exact h.tasks_set hfound hnot hh

theorem PoolOk.setTask (h : PoolOk pool)
    (hfound : pool.tasks[task]? = some found) (hnot : ∀ wanted, found ≠ .baseUrl wanted .holding)
    (hnext : ∀ wanted url, next ≠ .baseUrl wanted (.returned (.ok url))) :
    PoolOk (pool.setTask task next) :=
  ⟨h.slots, fun _ _ hh => h.tasks_set hfound hnot hh,
    fun i wanted url hi => h.names i wanted url (names_set hnext i wanted url hi)⟩

/-- The holder of a slot returns or is dropped. -/
theorem PoolOk.leave (h : PoolOk pool)
    (hfound : pool.tasks[task]? = some (.baseUrl wanted .holding))
    (hext : Extends wanted.modelId pool.servers servers')
    (hslot : SlotOk servers' wanted.modelId slot') (hholder : slot'.holder = none)
    (hnames : ∀ url, state = .returned (.ok url) → Names servers' wanted url) :
    PoolOk (({ pool with servers := servers' }.setSlot wanted.modelId slot').setTask task
      (.baseUrl wanted state)) := by
  refine h.change hext hslot (fun m holder hm hh => ?_) (fun holder hh => ?_)
    fun i wanted' url hi => ?_
  · have hold := h.holding m holder hh
    have hne : task ≠ holder.task := by
      rintro rfl
      rw [hfound, Option.some.injEq, Task.baseUrl.injEq] at hold
      exact hm (((h.slots m).holder holder hh).1.symm.trans (congrArg Wanted.modelId hold.1.symm))
    exact (List.getElem?_set_ne hne).trans hold
  · rw [hholder] at hh
    cases hh
  · rcases Lists.getElem?_set_cases hi with ⟨-, hnext⟩ | ⟨-, hold⟩
    · rw [Task.baseUrl.injEq] at hnext
      rw [hnext.1]
      exact .inr (hnames url hnext.2.symm)
    · exact .inl hold

theorem PoolOk.stepBaseUrl (h : PoolOk pool)
    (hfound : pool.tasks[task]? = some (.baseUrl wanted state))
    (hstep : pool.stepBaseUrl task wanted answer state = some pool') : PoolOk pool' := by
  have hslot := h.slots wanted.modelId
  cases state with
  | waiting =>
    simp only [Pool.stepBaseUrl, Option.ite_some_none_eq_some] at hstep
    obtain ⟨hfree, rfl⟩ := hstep
    have htaken : SlotOk pool.servers wanted.modelId { pool.slots wanted.modelId with
        holder := some { task := task, wanted := wanted, place := .check } } := by
      refine ⟨hslot.server, fun holder hh => ?_, hslot.window,
        fun i server hserver hid halive => ?_⟩
      · cases hh
        exact ⟨rfl, trivial⟩
      · rcases hslot.live i server hserver hid halive with hin | ⟨found, hfound, -⟩
        · exact .inl hin
        · simp [hfound] at hfree
    refine h.change (Extends.refl _ _) htaken
      (fun m holder hm hh => h.tasks_set hfound (by simp) hh) (fun holder hh => ?_)
      fun i wanted url hi => .inl (names_set (by simp) i wanted url hi)
    cases hh
    exact List.getElem?_set_self (List.getElem?_eq_some_iff.1 hfound).1
  | holding =>
    simp only [Pool.stepBaseUrl, Option.bind_eq_some_iff, Option.ite_none_right_eq_some,
      Option.map_eq_some_iff] at hstep
    obtain ⟨holder, hholder, htask, moved, hmove, rfl⟩ := hstep
    have hwanted : holder.wanted = wanted := by
      have hold := h.holding wanted.modelId holder hholder
      rw [htask, hfound, Option.some.injEq, Task.baseUrl.injEq] at hold
      exact hold.1.symm
    have hmoved := hslot.move hholder hmove
    cases hresult : moved.2.2 with
    | some result =>
      simp only [Pool.settle, hresult]
      refine h.leave hfound hmoved.grows hmoved.slot (hmoved.leaves (by simp [hresult])) ?_
      intro url hurl
      rw [CallState.returned.injEq] at hurl
      have hnames := hmoved.names url (by rw [hresult, hurl])
      rwa [hwanted] at hnames
    | none =>
      obtain ⟨place, hplace⟩ := hmoved.stays hresult
      simp only [Pool.settle, hresult]
      refine h.change hmoved.grows hmoved.slot (fun m holder _ hh => h.holding m holder hh)
        (fun next hn => ?_) fun i wanted url hi => .inl hi
      rw [hplace, Option.some.injEq] at hn
      subst hn
      exact h.holding _ holder hholder
  | returned result => cases hstep
  | dropped => cases hstep

theorem PoolOk.stepEvict (h : PoolOk pool) {state : EvictState}
    (hfound : pool.tasks[task]? = some (.evict modelId state))
    (hstep : pool.stepEvict task modelId state = some pool') : PoolOk pool' := by
  have hslot := h.slots modelId
  cases state with
  | waiting =>
    simp only [Pool.stepEvict, Option.ite_some_none_eq_some, Option.isNone_iff_eq_none] at hstep
    obtain ⟨hfree, rfl⟩ := hstep
    exact h.free hfound (by simp) (by simp) (extends_drop _ _ _) (hslot.evicted hfree) rfl
  | emptied =>
    cases hstep
    exact h.free hfound (by simp) (by simp) (Extends.refl _ _) hslot.cleared rfl
  | done => cases hstep

theorem PoolOk.crash (h : PoolOk pool) (process : ℕ) :
    PoolOk { pool with servers := stop pool.servers process } := by
  refine ⟨fun m => ?_, h.holding, fun i wanted url hi => ?_⟩
  · refine (h.slots m).extends (extends_stop m _ _) fun i server hserver _ => ?_
    rw [getElem?_stop, Option.map_eq_some_iff] at hserver
    exact hserver.imp fun _ hold => hold.1
  · exact (h.names i wanted url hi).extends (extends_stop wanted.modelId _ _)

theorem PoolOk.drop (h : PoolOk pool) (hstep : pool.step (.drop task) = some pool') :
    PoolOk pool' := by
  simp only [Pool.step, Option.bind_eq_some_iff] at hstep
  obtain ⟨found, hfound, hstep⟩ := hstep
  split at hstep
  · cases hstep
    exact h.setTask hfound (by simp) (by simp)
  · rename_i wanted
    simp only [Option.bind_eq_some_iff, Option.ite_none_right_eq_some,
      Option.map_eq_some_iff] at hstep
    obtain ⟨holder, hholder, -, left, habandon, rfl⟩ := hstep
    obtain ⟨hext, hslot, hnone⟩ := (h.slots wanted.modelId).abandon hholder habandon
    exact h.leave hfound hext hslot hnone (by simp)
  · cases hstep

theorem PoolOk.step (h : PoolOk pool) (hstep : pool.step action = some pool') : PoolOk pool' := by
  cases action with
  | baseUrl wanted | evict m | residentWindow m =>
    cases hstep
    exact h.call (by simp)
  | step task answer =>
    simp only [Pool.step, Option.bind_eq_some_iff] at hstep
    obtain ⟨found, hfound, hstep⟩ := hstep
    cases found with
    | baseUrl wanted state => exact h.stepBaseUrl hfound hstep
    | evict m state => exact h.stepEvict hfound hstep
    | residentWindow m state =>
      simp only [Option.map_eq_some_iff] at hstep
      obtain ⟨window, -, rfl⟩ := hstep
      exact h.setTask hfound (by simp) (by simp)
  | tryLockFails task =>
    simp only [Pool.step, Option.bind_eq_some_iff] at hstep
    obtain ⟨found, hfound, hstep⟩ := hstep
    split at hstep
    · cases hstep
      exact h.setTask hfound (by simp) (by simp)
    · cases hstep
  | drop task => exact h.drop hstep
  | crash process =>
    simp only [Pool.step, Option.ite_some_none_eq_some] at hstep
    obtain ⟨-, rfl⟩ := hstep
    exact h.crash process

/-! ## The answer of `resident_window` -/

/-- A window is that of the chat server in the slot. -/
def CurrentChatWindow (servers : List Server) (modelId : String) (slot : Slot) (window : ℤ) :
    Prop :=
  ∃ running sees port, slot.server = some running ∧
    Serves servers running.process modelId sees .chat window port

/-- An answer is none, or the window of the chat server in the slot, or of the one last made
ready there. -/
def WindowOk (pool : Pool) (modelId : String) (answer : Option ℤ) : Prop :=
  ∀ window, answer = some window →
    CurrentChatWindow pool.servers modelId (pool.slots modelId) window ∨
      LastChatWindow pool.servers modelId (pool.slots modelId) window

/-- Every `resident_window` that answers in this step answers so. -/
def Pool.answersWell (pool : Pool) : Action → Prop
  | .step task _ => ∀ modelId state, pool.tasks[task]? = some (.residentWindow modelId state) →
      ∀ answer, pool.residentAnswer modelId state = some answer → WindowOk pool modelId answer
  | _ => True

theorem positive_eq_some {window window' : ℤ} (h : Pool.positive window = some window') :
    window' = window ∧ 0 < window := by
  rw [Pool.positive, Option.ite_some_none_eq_some] at h
  exact ⟨h.2.symm, h.1⟩

theorem PoolOk.answersWell (h : PoolOk pool) (action : Action) : pool.answersWell action := by
  cases action with
  | step task answer =>
    intro modelId state _ answer hanswer window hwindow
    have hslot := h.slots modelId
    subst hwindow
    cases state with
    | start =>
      simp only [Pool.residentAnswer, Option.ite_some_none_eq_some] at hanswer
      obtain ⟨rfl, hpositive⟩ := positive_eq_some hanswer.2
      left
      rw [Slot.heldWindow] at hpositive ⊢
      split at hpositive
      · rename_i running hrunning
        split at hpositive
        · rename_i hchat
          obtain ⟨port, -, hserves⟩ := hslot.server running hrunning
          rw [hchat.1] at hserves
          exact ⟨running, _, port, hrunning, by simpa [hchat] using hserves⟩
        · omega
      · omega
    | loading =>
      simp only [Pool.residentAnswer, Option.some.injEq] at hanswer
      obtain ⟨rfl, hpositive⟩ := positive_eq_some hanswer
      right
      exact hslot.window.resolve_left (by omega)
    | answered w => cases hanswer
  | baseUrl | evict | residentWindow | tryLockFails | drop | crash => trivial

/-! ## At most one live server -/

/-- At most one live server for each model. -/
def OneServerPerModel (pool : Pool) : Prop :=
  ∀ (i j : ℕ) server server', pool.servers[i]? = some server → pool.servers[j]? = some server' →
    server.modelId = server'.modelId → server.alive = true → server'.alive = true → i = j

/-- The step spawns a server while the slot still has a live one. -/
def Pool.spawnsBeside (pool : Pool) : Action → Bool
  | .step task (.spawned none) =>
    match pool.tasks[task]? with
    | some (.baseUrl wanted .holding) =>
      (pool.slots wanted.modelId).server.any fun running => isAlive pool.servers running.process
    | _ => false
  | _ => false

/-- No server was started. -/
def Shrinks (servers servers' : List Server) : Prop :=
  ∀ (i : ℕ) server', servers'[i]? = some server' → server'.alive = true →
    ∃ server, servers[i]? = some server ∧ server.alive = true ∧ server'.modelId = server.modelId

variable (servers : List Server)

theorem Shrinks.refl : Shrinks servers servers :=
  fun _ server' h halive => ⟨server', h, halive, rfl⟩

theorem shrinks_stop (process : ℕ) : Shrinks servers (stop servers process) := by
  intro i server' h halive
  rw [getElem?_stop, Option.map_eq_some_iff] at h
  obtain ⟨server, hserver, rfl⟩ := h
  by_cases hi : process = i
  · simp [hi] at halive
  · exact ⟨server, hserver, by simpa [hi] using halive, by simp [hi]⟩

theorem shrinks_drop (slot : Slot) : Shrinks servers (slot.drop servers) := by
  rw [Slot.drop]
  split
  · exact shrinks_stop _ _
  · exact Shrinks.refl _

/-- A move of a holder starts no server, or it is the one of the spawn. -/
theorem move_servers {servers : List Server}
    {moved : Moved} (hmove : slot.move servers holder answer = some moved) :
    (Shrinks servers moved.1 ∧ answer ≠ .spawned none) ∨
      ∃ attempt port, holder.place = .spawn attempt port ∧ answer = .spawned none ∧
        moved.1 = servers ++ [Slot.launched holder.wanted attempt port] := by
  unfold Slot.move at hmove
  split at hmove
  case h_6 attempt port error hplace =>
    cases error with
    | some error =>
      cases hmove
      exact .inl ⟨Shrinks.refl _, by simp⟩
    | none =>
      cases hmove
      exact .inr ⟨attempt, port, hplace, rfl, rfl⟩
  case h_2 =>
    obtain ⟨running, -, hmove⟩ := Option.bind_eq_some_iff.1 hmove
    split at hmove <;> (cases hmove; exact .inl ⟨Shrinks.refl _, by simp⟩)
  case h_4 | h_5 =>
    split at hmove <;> (cases hmove; exact .inl ⟨Shrinks.refl _, by simp⟩)
  case h_8 =>
    split at hmove
    · cases hmove
    · cases hmove
      exact .inl ⟨shrinks_stop _ _, by simp⟩
  case h_9 =>
    cases hmove
    exact .inl ⟨shrinks_stop _ _, by simp⟩
  case h_10 =>
    split at hmove <;> (cases hmove; exact .inl ⟨Shrinks.refl _, by simp⟩)
  case h_12 =>
    cases hmove
    exact .inl ⟨shrinks_drop _ _, by simp⟩
  case h_13 => cases hmove
  all_goals
    cases hmove
    exact .inl ⟨Shrinks.refl _, by simp⟩

theorem abandon_servers {servers servers' : List Server} {left : Slot} {place : Place}
    (h : slot.abandon servers place = some (servers', left)) : Shrinks servers servers' := by
  unfold Slot.abandon at h
  split at h
  · cases h
    exact Shrinks.refl _
  · cases h
    exact Shrinks.refl _
  · cases h
    exact shrinks_stop _ _
  · cases h

theorem spawnsBeside_of_not_holding (hfound : pool.tasks[task]? = some found)
    (hnot : ∀ wanted, found ≠ .baseUrl wanted .holding) (answer : Answer) :
    pool.spawnsBeside (.step task answer) = false := by
  unfold Pool.spawnsBeside
  split
  · rename_i task' hstep
    cases hstep
    split
    · rename_i wanted hholding
      rw [hfound, Option.some.injEq] at hholding
      exact (hnot wanted hholding).elim
    · rfl
  · rfl

theorem settle_servers (pool : Pool) (task : ℕ) (wanted : Wanted) (moved : Moved) :
    (pool.settle task wanted moved).servers = moved.1 := by
  unfold Pool.settle
  cases moved.2.2 <;> rfl

/-- What a step does to the servers: none is started, or one is spawned by the holder of the
slot. -/
theorem step_servers (hstep : pool.step action = some pool') :
    (pool.spawnsBeside action = false ∧ Shrinks pool.servers pool'.servers) ∨
      ∃ task wanted holder attempt port, action = .step task (.spawned none) ∧
        pool.tasks[task]? = some (.baseUrl wanted .holding) ∧
        (pool.slots wanted.modelId).holder = some holder ∧ holder.place = .spawn attempt port ∧
        pool'.servers = pool.servers ++ [Slot.launched holder.wanted attempt port] := by
  cases action with
  | baseUrl wanted | evict m | residentWindow m =>
    cases hstep
    exact .inl ⟨rfl, Shrinks.refl _⟩
  | step task answer =>
    simp only [Pool.step, Option.bind_eq_some_iff] at hstep
    obtain ⟨found, hfound, hstep⟩ := hstep
    cases found with
    | residentWindow m state =>
      simp only [Option.map_eq_some_iff] at hstep
      obtain ⟨window, -, rfl⟩ := hstep
      exact .inl ⟨spawnsBeside_of_not_holding hfound (by simp) answer, Shrinks.refl _⟩
    | evict m state =>
      refine .inl ⟨spawnsBeside_of_not_holding hfound (by simp) answer, ?_⟩
      cases state with
      | waiting =>
        simp only [Pool.stepEvict, Option.ite_some_none_eq_some] at hstep
        obtain ⟨-, rfl⟩ := hstep
        exact shrinks_drop _ _
      | emptied => cases hstep; exact Shrinks.refl _
      | done => cases hstep
    | baseUrl wanted state =>
      cases state with
      | waiting =>
        simp only [Pool.stepBaseUrl, Option.ite_some_none_eq_some] at hstep
        obtain ⟨-, rfl⟩ := hstep
        exact .inl ⟨spawnsBeside_of_not_holding hfound (by simp) answer, Shrinks.refl _⟩
      | holding =>
        simp only [Pool.stepBaseUrl, Option.bind_eq_some_iff, Option.ite_none_right_eq_some,
          Option.map_eq_some_iff] at hstep
        obtain ⟨holder, hholder, htask, moved, hmove, rfl⟩ := hstep
        rw [settle_servers]
        rcases move_servers hmove with ⟨hshrinks, hanswer⟩ | ⟨attempt, port, hplace, rfl, hspawn⟩
        · refine .inl ⟨?_, hshrinks⟩
          unfold Pool.spawnsBeside
          split
          · exact (hanswer (by simp_all)).elim
          · rfl
        · exact .inr ⟨task, wanted, holder, attempt, port, rfl, hfound, hholder, hplace, hspawn⟩
      | returned result => cases hstep
      | dropped => cases hstep
  | tryLockFails task =>
    simp only [Pool.step, Option.bind_eq_some_iff] at hstep
    obtain ⟨found, -, hstep⟩ := hstep
    split at hstep
    · cases hstep
      exact .inl ⟨rfl, Shrinks.refl _⟩
    · cases hstep
  | drop task =>
    refine .inl ⟨rfl, ?_⟩
    simp only [Pool.step, Option.bind_eq_some_iff] at hstep
    obtain ⟨found, -, hstep⟩ := hstep
    split at hstep
    · cases hstep
      exact Shrinks.refl _
    · simp only [Option.bind_eq_some_iff, Option.ite_none_right_eq_some,
        Option.map_eq_some_iff] at hstep
      obtain ⟨holder, -, -, left, habandon, rfl⟩ := hstep
      exact abandon_servers habandon
    · cases hstep
  | crash process =>
    simp only [Pool.step, Option.ite_some_none_eq_some] at hstep
    obtain ⟨-, rfl⟩ := hstep
    exact .inl ⟨rfl, shrinks_stop _ _⟩

theorem OneServerPerModel.shrinks (h : OneServerPerModel pool)
    (hshrinks : Shrinks pool.servers pool'.servers) : OneServerPerModel pool' := by
  intro i j server server' hi hj hmodel halive halive'
  obtain ⟨old, hold, hlive, hid⟩ := hshrinks i server hi halive
  obtain ⟨old', hold', hlive', hid'⟩ := hshrinks j server' hj halive'
  exact h i j old old' hold hold' (hid.symm.trans (hmodel.trans hid')) hlive hlive'

/-- A step keeps one server for each model exactly if it does not spawn beside a live one. -/
theorem oneServer_step_iff (hok : PoolOk pool) (hone : OneServerPerModel pool)
    (hstep : pool.step action = some pool') :
    OneServerPerModel pool' ↔ pool.spawnsBeside action = false := by
  rcases step_servers hstep with ⟨hbeside, hshrinks⟩ |
    ⟨task, wanted, holder, attempt, port, rfl, hfound, hholder, hplace, hservers⟩
  · exact ⟨fun _ => hbeside, fun _ => hone.shrinks hshrinks⟩
  have hslot := hok.slots wanted.modelId
  have hmodel := (hslot.holder holder hholder).1
  have hbeside : pool.spawnsBeside (.step task (.spawned none)) =
      (pool.slots wanted.modelId).server.any fun running =>
        isAlive pool.servers running.process := by
    simp [Pool.spawnsBeside, hfound]
  have hnew : pool'.servers[pool.servers.length]? =
      some (Slot.launched holder.wanted attempt port) := by
    rw [hservers, List.getElem?_concat_length]
  rw [hbeside]
  constructor
  · intro h
    rw [Bool.eq_false_iff]
    intro halive
    obtain ⟨running, hrunning, halive⟩ := (Option.any_eq_true _ _).1 halive
    obtain ⟨port', -, server, hserver, hid, -⟩ := hslot.server running hrunning
    have hlt := (List.getElem?_eq_some_iff.1 hserver).1
    rw [isAlive, hserver, Option.any_some] at halive
    have hold : pool'.servers[running.process]? = some server := by
      rw [hservers, List.getElem?_append_left hlt, hserver]
    have heq := h _ _ _ _ hold hnew (hid.trans hmodel.symm) halive rfl
    omega
  · intro hdead i j server server' hi hj hids halive halive'
    -- no live server of the model is left beside the new one
    have hnone : ∀ (i : ℕ) old, pool.servers[i]? = some old → old.modelId = wanted.modelId →
        old.alive = false := by
      intro i old hold hid
      rw [← Bool.not_eq_true]
      intro hlive
      rcases hslot.live_cases hholder hold hid hlive with ⟨running, hrunning, rfl⟩ | hin
      · rw [hrunning, Option.any_some, isAlive, hold, Option.any_some, hlive] at hdead
        cases hdead
      · rw [hplace] at hin
        cases hin
    rw [hservers] at hi hj
    rcases Lists.getElem?_concat_cases hi with hi | ⟨rfl, rfl⟩ <;>
      rcases Lists.getElem?_concat_cases hj with hj | ⟨rfl, rfl⟩
    · exact hone i j server server' hi hj hids halive halive'
    · rw [hnone i server hi (hids.trans hmodel)] at halive
      cases halive
    · rw [hnone j server' hj (hids.symm.trans hmodel)] at halive'
      cases halive'
    · rfl

end

/-! ## The pool keeps its promise -/

/-- Over every run of the pool: every `base_url` that has returned names a server launched for
what it wanted, every `resident_window` answers with a window of its slot, and each model has at
most one live server throughout exactly if no server is spawned while the slot has a live one. -/
theorem pool_serves_one_per_model (actions : List Action) :
    Transition.StatesMeet Pool.step (fun pool => ∀ (task : ℕ) wanted url,
      pool.tasks[task]? = some (.baseUrl wanted (.returned (.ok url))) →
        Names pool.servers wanted url) {} actions ∧
    Transition.StepsMeet Pool.step Pool.answersWell {} actions ∧
    (Transition.StatesMeet Pool.step OneServerPerModel {} actions ↔
      Transition.StepsMeet Pool.step (fun pool action => pool.spawnsBeside action = false) {}
        actions) := by
  have hinv : ∀ pool action pool', PoolOk pool → pool.step action = some pool' → PoolOk pool' :=
    fun pool action pool' h hstep => h.step hstep
  have hone : OneServerPerModel {} := by
    intro i j server server' hi
    simp at hi
  refine ⟨?_, ?_, ?_⟩
  · exact Transition.StatesMeet.of_invariant hinv (fun pool h => h.names) poolOk_empty actions
  · exact Transition.StepsMeet.of_invariant hinv (fun pool action h => h.answersWell action)
      poolOk_empty actions
  · exact Transition.statesMeet_iff_stepsMeet
      (fun pool action pool' h _ hstep _ => hinv pool action pool' h hstep)
      (fun pool action pool' h hone hstep => oneServer_step_iff h hone hstep)
      poolOk_empty hone actions

/-- A chat call that needs a window. -/
def chatWith (window : ℤ) : Wanted where
  modelId := "m"
  gguf := "m.gguf"
  aliasName := "M"
  contextTokens := window
  mode := .chat
  sight := false

/-- The steps of a call that finds no server it can have, up to its spawn. -/
def launching (task port : ℕ) : List Action :=
  [.step task .plain, .step task .plain, .step task (.projector none),
    .step task (.prepared (.ok none)), .step task (.port (.ok port)), .step task (.spawned none)]

/-- A chat call, then one that needs a larger window than its server has. -/
def growingWindow : List Action :=
  [Action.baseUrl (chatWith 4096)] ++ launching 0 8080 ++
    ([.step 0 .ready, .step 0 .plain, .step 0 .plain, .baseUrl (chatWith 8192)] : List Action) ++
    launching 1 8081

/-- While the larger server loads, the one it replaces is still alive. -/
theorem growing_window_has_two_servers :
    ∃ pool, Transition.Reachable Pool.step (· = {}) pool ∧ ¬ OneServerPerModel pool := by
  obtain ⟨pool, hrun⟩ : ∃ pool, Transition.run Pool.step {} growingWindow = some pool := ⟨_, rfl⟩
  refine ⟨pool, Transition.Reachable.run (.init rfl) hrun, fun h => ?_⟩
  cases hrun
  have heq := h 0 1 _ _ rfl rfl rfl rfl rfl
  cases heq

end Hedos.Adapters
