import Mathlib.Data.List.Induction
import Mathlib.Data.List.Nodup
import Asm6502.Proofs.OperandOutcomes
import Asm6502.Proofs.Operations

/-!
# Tracking references

A symbol table keeps two accounts of names that are used before their definition: the references, a list that
grows when an unknown name is looked up in discovery, and the pins, a map that changes when a mode is pinned.
A pin also rewrites the references at its place, but a reference may come after the pin of its place, and the
cursor may return to any place. Here the two accounts are followed through any sequence of calls, failed ones
included, in any passes and at any cursors.

* `Symbols.Accounts`: what one call does to references and pins. All that follows is derived from it.
* `Symbols.Orderly`: what holds of the accounts at every moment.
* `Symbols.recorded_afterAll`: every reference was recorded by a call on the way.
* `Symbols.Marked`: what a pin leaves at its place, up to the next one there.
* `references_are_tracked`: all of this together, for a new table.
-/

namespace Asm6502

open Asm6502.Action (Moves)

-- ── Calls ───────────────────────────────────────────────────────────────────

/-- A call of a symbol table: the pass and the cursor at that moment, and what is asked. -/
structure SymbolCall where
  pass : Pass
  cursor : Number
  command : SymbolCommand
  deriving DecidableEq

/-- Where which name was used. -/
def Reference.site (r : Reference) : String × Number := (r.name, r.address)

namespace Symbols

/-- The uses on record, in their order. -/
def sites (s : Symbols) : List (String × Number) := s.references.map (·.site)

/-- The table that a call leaves, whether it succeeds or fails. -/
def after (s : Symbols) (c : SymbolCall) : Symbols := ((c.command.run c.pass c.cursor).exec s).2

/-- The table that calls leave, one after another. -/
def afterAll (s : Symbols) (calls : List SymbolCall) : Symbols := calls.foldl after s

variable {s t : Symbols} {c : SymbolCall} {calls earlier later : List SymbolCall}

theorem afterAll_append : s.afterAll (earlier ++ later) = (s.afterAll earlier).afterAll later :=
  List.foldl_append

theorem afterAll_concat : s.afterAll (earlier ++ [c]) = (s.afterAll earlier).after c :=
  List.foldl_concat ..

theorem mem_sites {site : String × Number} : site ∈ s.sites ↔ ∃ r ∈ s.references, r.site = site :=
  List.mem_map

-- ── What a call does ────────────────────────────────────────────────────────

/-- References and pins stay as they are. -/
structure SameAccounts (s t : Symbols) : Prop where
  references : t.references = s.references
  pins : t.pins = s.pins

theorem SameAccounts.refl (s : Symbols) : s.SameAccounts s := ⟨rfl, rfl⟩

theorem SameAccounts.trans (r s t : Symbols) (h : r.SameAccounts s) (h' : s.SameAccounts t) :
    r.SameAccounts t :=
  ⟨h'.references.trans h.references, h'.pins.trans h.pins⟩

theorem sameAccounts_define (pass : Pass) (name : String) (x : Number) :
    Moves SameAccounts (define pass name x) := by
  intro s
  refine ⟨?_, pins_define pass name x s⟩
  unfold define checkAddress
  cases hx : x.toAddress? with
  | none => rfl
  | some a => cases hf : s.labels.find? name <;> cases pass <;> simp [Action.exec_bind, hf]

theorem sameAccounts_defineDouble (pass : Pass) (cursor : Number) (name : String) :
    Moves SameAccounts (defineDouble pass cursor name) :=
  Moves.bind .trans (sameAccounts_define pass _ cursor) (fun _ =>
    Moves.answering .refl .trans (sameAccounts_define pass _ (cursor + 1)) _)

/-- What a call does to the accounts: an unknown name without a reference that is looked up in discovery gets
    one, a mode is pinned, or nothing happens. -/
inductive Accounts (s : Symbols) (c : SymbolCall) : Symbols → Prop
  | noted {name : String} (hcommand : c.command = .lookup name) (hpass : c.pass = .discovery)
      (hlacks : s.Lacks c.cursor name) : Accounts s c (s.refer c.cursor [name])
  | pinned {place : Number} {mode : Mode} (hcommand : c.command = .pin place mode) :
      Accounts s c (s.pin place mode)
  | same {t : Symbols} (hcommand : ∀ place mode, c.command ≠ .pin place mode) (hsame : s.SameAccounts t) :
      Accounts s c t

/-- A lookup uses its name. -/
theorem after_lookup {name : String} (h : c.command = .lookup name) :
    s.after c = s.use c.pass c.cursor name := by
  rw [after, h, SymbolCommand.run, Action.exec_answering, exec_resolve]

theorem accounts_after (hcursor : c.cursor ≠ .nan) (s : Symbols) : Accounts s c (s.after c) := by
  cases hcommand : c.command with
  | define name address =>
      refine .same (fun _ _ hno => by cases hcommand.symm.trans hno) ?_
      rw [after, hcommand]
      exact Moves.answering .refl .trans (sameAccounts_define c.pass name _) _ s
  | defineDouble name =>
      refine .same (fun _ _ hno => by cases hcommand.symm.trans hno) ?_
      rw [after, hcommand]
      exact Moves.answering .refl .trans (sameAccounts_defineDouble c.pass c.cursor name) _ s
  | lookup name =>
      rw [after_lookup hcommand]
      cases hpass : c.pass with
      | final =>
          refine .same (fun _ _ hno => by cases hcommand.symm.trans hno) ?_
          unfold use
          cases s.labels.find? name <;> exact .refl s
      | discovery =>
          rw [use_discovery hcursor]
          split
          · rename_i hlacks
            exact .noted hcommand hpass hlacks
          · exact .same (fun _ _ hno => by cases hcommand.symm.trans hno) (.refl s)
  | pin place mode =>
      rw [after, hcommand]
      exact .pinned hcommand
  | pinned _ | has _ | get _ | entries | references | drifts | placeholder =>
      refine .same (fun _ _ hno => by cases hcommand.symm.trans hno) ?_
      rw [after, hcommand]
      exact .refl s

-- ── Notes and pins ──────────────────────────────────────────────────────────

theorem sites_refer (s : Symbols) (cursor : Number) (name : String) :
    (s.refer cursor [name]).sites = s.sites ++ [(name, cursor)] :=
  List.map_append

theorem not_mem_sites_of_lacks {cursor : Number} {name : String} (h : s.Lacks cursor name) :
    (name, cursor) ∉ s.sites := by
  intro hsite
  obtain ⟨r, hr, heq⟩ := mem_sites.mp hsite
  exact h.2 r hr (Prod.mk.inj heq)

/-- A pin rewrites the references at its place. -/
theorem mem_references_pin {place : Number} {mode : Mode} {r' : Reference}
    (h : r' ∈ (s.pin place mode).references) :
    ∃ r ∈ s.references, r'.site = r.site ∧
      r'.mode = if r.address.equals place then some mode else r.mode := by
  obtain ⟨r, hr, rfl⟩ := List.mem_map.mp h
  refine ⟨r, hr, ?_⟩
  split <;> exact ⟨rfl, rfl⟩

theorem sites_pin (s : Symbols) (place : Number) (mode : Mode) : (s.pin place mode).sites = s.sites := by
  unfold sites pin
  rw [List.map_map]
  refine List.map_congr_left (fun r _ => ?_)
  show (if r.address.equals place then _ else _ : Reference).site = r.site
  split <;> rfl

theorem pinned?_pin (s : Symbols) (place : Number) (mode : Mode) (x : Number) :
    (s.pin place mode).pinned? x = if place = x then some mode else s.pinned? x :=
  Table.find?_insert s.pins place x mode

-- ── Sites ───────────────────────────────────────────────────────────────────

theorem SameAccounts.sites (h : s.SameAccounts t) : t.sites = s.sites := by
  rw [Symbols.sites, Symbols.sites, h.references]

/-- A call that looks up an unknown name in discovery, at a site. -/
structure Uses (s : Symbols) (c : SymbolCall) (site : String × Number) : Prop where
  command : c.command = .lookup site.1
  cursor : c.cursor = site.2
  pass : c.pass = .discovery
  undefined : s.labels.find? site.1 = none

/-- A call leaves the sites as they are, or it is the use of a new one. -/
theorem Accounts.sites (h : s.Accounts c t) :
    t.sites = s.sites ∨ ∃ site, s.Uses c site ∧ t.sites = s.sites ++ [site] := by
  cases h with
  | noted hcommand hpass hlacks =>
      exact Or.inr ⟨(_, c.cursor), ⟨hcommand, rfl, hpass, hlacks.1⟩, sites_refer ..⟩
  | pinned _ => exact Or.inl (sites_pin ..)
  | same _ hsame => exact Or.inl hsame.sites

/-- The final pass records nothing. -/
theorem Accounts.sites_final (h : s.Accounts c t) (hpass : c.pass = .final) : t.sites = s.sites := by
  cases h with
  | noted _ hdiscovery _ => cases hpass.symm.trans hdiscovery
  | pinned _ => exact sites_pin ..
  | same _ hsame => exact hsame.sites

theorem Accounts.sites_extend (h : s.Accounts c t) : s.sites <+: t.sites := by
  rcases h.sites with hsame | ⟨site, -, hnew⟩
  · exact ⟨[], by rw [List.append_nil, hsame]⟩
  · exact ⟨[site], hnew.symm⟩

/-- What is used is on record. -/
theorem Uses.mem_sites {site : String × Number} (h : s.Uses c site) (hcursor : c.cursor ≠ .nan) :
    site ∈ (s.after c).sites := by
  obtain ⟨name, place⟩ := site
  obtain ⟨hcommand, rfl, hpass, hname⟩ := h
  rw [after_lookup hcommand, hpass, use_discovery hcursor]
  split
  · rw [sites_refer]
    exact List.mem_append_right _ (List.mem_singleton_self _)
  · rename_i hlacks
    by_contra hnone
    refine hlacks ⟨hname, fun r hr hsame => hnone ?_⟩
    exact Symbols.mem_sites.mpr ⟨r, hr, Prod.ext hsame.1 hsame.2⟩

/-- Sites are never removed and never change places. -/
theorem sites_extend_afterAll (hcursors : ∀ c ∈ calls, c.cursor ≠ .nan) :
    s.sites <+: (s.afterAll calls).sites := by
  induction calls generalizing s with
  | nil => exact List.prefix_refl _
  | cons c calls ih =>
      obtain ⟨hcursor, hrest⟩ := List.forall_mem_cons.mp hcursors
      exact (accounts_after hcursor s).sites_extend.trans (ih hrest)

/-- What is on record in the end was so in the beginning, or was recorded by a call that used it. -/
theorem recorded_afterAll (hcursors : ∀ c ∈ calls, c.cursor ≠ .nan) {site : String × Number}
    (hsite : site ∈ (s.afterAll calls).sites) :
    site ∈ s.sites ∨ ∃ earlier c later, calls = earlier ++ c :: later ∧
      (s.afterAll earlier).Uses c site ∧
      (s.afterAll (earlier ++ [c])).sites = (s.afterAll earlier).sites ++ [site] := by
  induction calls using List.reverseRecOn with
  | nil => exact Or.inl hsite
  | append_singleton calls c ih =>
      obtain ⟨hbefore, hlast⟩ := List.forall_mem_append.mp hcursors
      have hold : site ∈ (s.afterAll calls).sites → site ∈ s.sites ∨ ∃ earlier c' later,
          calls ++ [c] = earlier ++ c' :: later ∧ (s.afterAll earlier).Uses c' site ∧
          (s.afterAll (earlier ++ [c'])).sites = (s.afterAll earlier).sites ++ [site] := by
        intro hmem
        rcases ih hbefore hmem with hstart | ⟨earlier, c', later, rfl, huse⟩
        · exact Or.inl hstart
        · exact Or.inr ⟨earlier, c', later ++ [c], List.append_assoc .., huse⟩
      rw [afterAll_concat] at hsite
      rcases (accounts_after (hlast c (List.mem_singleton_self c)) _).sites with hsame | ⟨new, huse, hnew⟩
      · rw [hsame] at hsite
        exact hold hsite
      · rw [hnew] at hsite
        rcases List.mem_append.mp hsite with hmem | hmem
        · exact hold hmem
        · obtain rfl := List.mem_singleton.mp hmem
          exact Or.inr ⟨calls, c, [], rfl, huse, by rw [afterAll_concat]; exact hnew⟩

-- ── Modes ───────────────────────────────────────────────────────────────────

/-- The accounts at any moment: no site is recorded twice, and a reference has no mode or the one that is
    pinned at its address. -/
structure Orderly (s : Symbols) : Prop where
  distinct : s.sites.Nodup
  placed : ∀ r ∈ s.references, r.address ≠ .nan
  modes : ∀ r ∈ s.references, r.mode = none ∨ r.mode = s.pinned? r.address

theorem Orderly.refer (h : s.Orderly) {cursor : Number} (hcursor : cursor ≠ .nan) {name : String}
    (hlacks : s.Lacks cursor name) : (s.refer cursor [name]).Orderly where
  distinct := by
    rw [sites_refer, ← List.concat_eq_append]
    exact List.Nodup.concat (not_mem_sites_of_lacks hlacks) h.distinct
  placed := List.forall_mem_append.mpr ⟨h.placed, List.forall_mem_singleton.mpr hcursor⟩
  modes := List.forall_mem_append.mpr ⟨h.modes, List.forall_mem_singleton.mpr (Or.inl rfl)⟩

theorem Orderly.pin (h : s.Orderly) (place : Number) (mode : Mode) : (s.pin place mode).Orderly where
  distinct := by
    rw [sites_pin]
    exact h.distinct
  placed r' hr' := by
    obtain ⟨r, hr, hsite, -⟩ := mem_references_pin hr'
    rw [show r'.address = r.address from congrArg Prod.snd hsite]
    exact h.placed r hr
  modes r' hr' := by
    obtain ⟨r, hr, hsite, hmode⟩ := mem_references_pin hr'
    have haddress : r'.address = r.address := congrArg Prod.snd hsite
    rw [hmode, haddress, pinned?_pin]
    -- both accounts are rewritten at the same place: it is a place of a reference, so no `nan`
    by_cases hplace : place = r.address
    · have hequals : r.address.equals place = true := by
        rw [hplace]
        exact (Number.equals_iff (h.placed r hr)).mpr rfl
      rw [if_pos hequals, if_pos hplace]
      exact Or.inr rfl
    · rw [if_neg (fun hequals => hplace (Number.eq_of_equals hequals).symm), if_neg hplace]
      exact h.modes r hr

theorem Accounts.orderly (haccounts : s.Accounts c t) (hcursor : c.cursor ≠ .nan) (h : s.Orderly) :
    t.Orderly := by
  cases haccounts with
  | noted _ _ hlacks => exact h.refer hcursor hlacks
  | pinned _ => exact h.pin _ _
  | same _ hsame =>
      refine ⟨?_, ?_, ?_⟩
      · rw [hsame.sites]
        exact h.distinct
      · rw [hsame.references]
        exact h.placed
      · simp only [hsame.references, pinned?, hsame.pins]
        exact h.modes

theorem Orderly.afterAll (h : s.Orderly) (hcursors : ∀ c ∈ calls, c.cursor ≠ .nan) :
    (s.afterAll calls).Orderly := by
  induction calls generalizing s with
  | nil => exact h
  | cons c calls ih =>
      obtain ⟨hcursor, hrest⟩ := List.forall_mem_cons.mp hcursors
      exact ih ((accounts_after hcursor s).orderly hcursor h) hrest

/-- What holds from the pin of a mode at a place up to the next one there: the mode is pinned, and the
    references that were on record have it. -/
structure Marked (known : List (String × Number)) (place : Number) (mode : Mode) (s : Symbols) : Prop where
  recorded : known ⊆ s.sites
  pinned : s.pinned? place = some mode
  modes : ∀ r ∈ s.references, r.address = place → r.site ∈ known → r.mode = some mode

variable {known : List (String × Number)} {place : Number} {mode : Mode}

theorem Orderly.marked_pin (h : s.Orderly) (place : Number) (mode : Mode) :
    Marked s.sites place mode (s.pin place mode) where
  recorded := by
    rw [sites_pin]
    exact List.Subset.refl _
  pinned := by rw [pinned?_pin, if_pos rfl]
  modes r' hr' hplace _ := by
    obtain ⟨r, hr, hsite, hmode⟩ := mem_references_pin hr'
    have haddress : r.address = place := (congrArg Prod.snd hsite).symm.trans hplace
    rw [hmode, if_pos ((Number.equals_iff (haddress ▸ h.placed r hr)).mpr haddress)]

theorem Accounts.marked (haccounts : s.Accounts c t) (hcommand : ∀ mode', c.command ≠ .pin place mode')
    (h : Marked known place mode s) : Marked known place mode t := by
  have hknown : known ⊆ t.sites := List.Subset.trans h.recorded haccounts.sites_extend.subset
  cases haccounts with
  | noted _ _ hlacks =>
      -- a new reference is none of those that the pin found
      have hnew := not_mem_sites_of_lacks hlacks
      refine ⟨hknown, h.pinned, List.forall_mem_append.mpr ⟨h.modes, List.forall_mem_singleton.mpr ?_⟩⟩
      exact fun _ hsite => absurd (h.recorded hsite) hnew
  | pinned hpin =>
      rename_i place' mode'
      have hother : place' ≠ place := by
        rintro rfl
        exact hcommand mode' hpin
      refine ⟨hknown, ?_, fun r' hr' hplace hsite' => ?_⟩
      · rw [pinned?_pin, if_neg hother]
        exact h.pinned
      · obtain ⟨r, hr, hsite, hmode⟩ := mem_references_pin hr'
        have haddress : r.address = place := (congrArg Prod.snd hsite).symm.trans hplace
        have hapart : ¬r.address.equals place' = true :=
          fun hequals => hother ((Number.eq_of_equals hequals).symm.trans haddress)
        rw [hmode, if_neg hapart]
        exact h.modes r hr haddress (hsite ▸ hsite')
  | same _ hsame =>
      refine ⟨hknown, ?_, ?_⟩
      · rw [pinned?, hsame.pins]
        exact h.pinned
      · rw [hsame.references]
        exact h.modes

theorem Marked.afterAll (h : Marked known place mode s) (hcursors : ∀ c ∈ calls, c.cursor ≠ .nan)
    (hcommands : ∀ c ∈ calls, ∀ mode', c.command ≠ .pin place mode') :
    Marked known place mode (s.afterAll calls) := by
  induction calls generalizing s with
  | nil => exact h
  | cons c calls ih =>
      obtain ⟨hcursor, hrest⟩ := List.forall_mem_cons.mp hcursors
      obtain ⟨hcommand, hothers⟩ := List.forall_mem_cons.mp hcommands
      exact ih ((accounts_after hcursor s).marked hcommand h) hrest hothers

-- ── Both accounts ───────────────────────────────────────────────────────────

/-- How a table has kept track of references through calls. A moment on the way is the table after some of
    the calls, `earlier`. -/
structure Tracks (s : Symbols) (calls : List SymbolCall) : Prop where
  /-- No name is on record twice at one address. -/
  distinct : (s.afterAll calls).sites.Nodup
  /-- A reference was recorded by a lookup in discovery, at its address and while its name was undefined. -/
  recorded : ∀ r ∈ (s.afterAll calls).references, ∃ earlier c later, calls = earlier ++ c :: later ∧
    (s.afterAll earlier).Uses c r.site ∧
    (s.afterAll (earlier ++ [c])).sites = (s.afterAll earlier).sites ++ [r.site]
  /-- Every such lookup has a reference. -/
  complete : ∀ earlier c later, calls = earlier ++ c :: later → ∀ site, (s.afterAll earlier).Uses c site →
    site ∈ (s.afterAll calls).sites
  /-- No reference is removed, and none changes places. -/
  kept : ∀ earlier later, calls = earlier ++ later → (s.afterAll earlier).sites <+: (s.afterAll calls).sites
  /-- No reference is added in the final pass. -/
  final : ∀ earlier c later, calls = earlier ++ c :: later → c.pass = .final →
    (s.afterAll (earlier ++ [c])).sites = (s.afterAll earlier).sites
  /-- A reference has no mode, or the one that is pinned at its address. -/
  modes : ∀ r ∈ (s.afterAll calls).references,
    r.mode = none ∨ r.mode = (s.afterAll calls).pinned? r.address
  /-- The mode pinned last at a place is pinned there, and the references that it found there have it. -/
  pins : ∀ earlier c later place mode, calls = earlier ++ c :: later → c.command = .pin place mode →
    (∀ c' ∈ later, ∀ mode', c'.command ≠ .pin place mode') →
    (s.afterAll calls).pinned? place = some mode ∧
      ∀ r ∈ (s.afterAll calls).references, r.address = place → r.site ∈ (s.afterAll earlier).sites →
        r.mode = some mode

/-- A new table has no references, so its accounts are in order. -/
theorem references_create {placeholder : Option Number} (h : create placeholder = .ok s) :
    s.references = [] := by
  unfold create at h
  extract_lets p at h
  split at h
  · split at h
    · cases h
    · rw [← Except.ok.inj h]
  · cases h

theorem orderly_of_no_references (h : s.references = []) : s.Orderly := by
  refine ⟨?_, ?_, ?_⟩
  · rw [sites, h]
    exact List.nodup_nil
  · rw [h]
    exact List.forall_mem_nil _
  · rw [h]
    exact List.forall_mem_nil _

end Symbols

/-- A new table keeps track of references through every sequence of calls, in any passes and at any cursors
    that are numbers, integers among them. -/
theorem references_are_tracked {placeholder : Option Number} {s : Symbols} {calls : List SymbolCall}
    (hnew : Symbols.create placeholder = .ok s) (hcursors : ∀ c ∈ calls, c.cursor ≠ .nan) :
    s.Tracks calls := by
  have hnone := Symbols.references_create hnew
  have hempty := Symbols.orderly_of_no_references hnone
  have horderly := hempty.afterAll hcursors
  refine ⟨horderly.distinct, fun r hr => ?_, ?_, ?_, ?_, horderly.modes, ?_⟩
  · rcases Symbols.recorded_afterAll hcursors (Symbols.mem_sites.mpr ⟨r, hr, rfl⟩) with hstart | hrecorded
    · rw [Symbols.sites, hnone] at hstart
      cases hstart
    · exact hrecorded
  · rintro earlier c later rfl site huse
    obtain ⟨-, hrest⟩ := List.forall_mem_append.mp hcursors
    obtain ⟨hcursor, hlater⟩ := List.forall_mem_cons.mp hrest
    rw [Symbols.afterAll_append]
    exact (Symbols.sites_extend_afterAll hlater).subset (huse.mem_sites hcursor)
  · rintro earlier later rfl
    rw [Symbols.afterAll_append]
    exact Symbols.sites_extend_afterAll (List.forall_mem_append.mp hcursors).2
  · rintro earlier c later rfl hpass
    have hcursor := hcursors c (List.mem_append_right _ (List.mem_cons_self ..))
    rw [Symbols.afterAll_concat]
    exact (Symbols.accounts_after hcursor _).sites_final hpass
  · rintro earlier c later place mode rfl hcommand hlast
    obtain ⟨hearlier, hrest⟩ := List.forall_mem_append.mp hcursors
    have hpin : (s.afterAll earlier).after c = (s.afterAll earlier).pin place mode := by
      rw [Symbols.after, hcommand]
      rfl
    have hmarked := (hempty.afterAll hearlier).marked_pin place mode
    rw [← hpin] at hmarked
    have hend := hmarked.afterAll (List.forall_mem_cons.mp hrest).2 hlast
    rw [Symbols.afterAll_append]
    exact ⟨hend.pinned, hend.modes⟩

/-- Two names at one place, one of them before and one behind its pin; a return to that place; a definition,
    and the final pass with a lookup that fails and a late pin. -/
def wanderingCalls : List SymbolCall :=
  [⟨.discovery, 0x1000, .lookup "loop"⟩, ⟨.discovery, 0x1000, .pin 0x1000 .absolute⟩,
    ⟨.discovery, 0x1000, .lookup "exit"⟩, ⟨.discovery, 0x1003, .lookup "loop"⟩,
    ⟨.discovery, 0x1000, .lookup "loop"⟩, ⟨.discovery, 0x0FFF, .defineDouble "loop"⟩,
    ⟨.discovery, 0x1006, .define "loop" none⟩, ⟨.discovery, -1, .lookup "loop"⟩,
    ⟨.final, 0x1000, .lookup "loop"⟩, ⟨.final, 0x1000, .lookup "exit"⟩,
    ⟨.final, 0x1003, .pin 0x1003 .absoluteX⟩]

theorem wandering_calls_are_tracked :
    ∃ s, Symbols.create none = .ok s ∧
      (s.afterAll wanderingCalls).references =
        [⟨"loop", 0x1000, some .absolute⟩, ⟨"exit", 0x1000, none⟩, ⟨"loop", 0x1003, some .absoluteX⟩] ∧
      s.Tracks wanderingCalls := by
  have hnew : ∃ s, Symbols.create none = .ok s := ⟨_, rfl⟩
  obtain ⟨s, hs⟩ := hnew
  refine ⟨s, hs, ?_, references_are_tracked hs (by decide +kernel)⟩
  rw [← Except.ok.inj hs]
  decide +kernel

end Asm6502
