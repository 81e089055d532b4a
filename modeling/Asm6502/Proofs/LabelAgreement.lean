import Asm6502.Proofs.Events
import Asm6502.Proofs.TwoPasses

/-!
# Labels of a program that compiles

Discovery gives labels their addresses, and the final pass may define them anew, define others and look
up any. A label that the final pass moves is recorded as drifted, for good, and a compilation in which a
label drifted fails. So in a compilation that succeeds labels only ever gained entries: what discovery
defined is what the result says, and what the final pass looked up is what the result says, whatever
else the program did in either pass.
-/

namespace Asm6502

namespace Session

/-- Labels that do not drift are kept. -/
structure KeepsLabels (s t : Session) : Prop where
  drifts : s.symbols.drifts <+: t.symbols.drifts
  labels : t.symbols.drifts = [] → ∀ name a, s.symbols.labels.find? name = some a →
    t.symbols.labels.find? name = some a
  pass : s.pass = .final → t.pass = .final

namespace KeepsLabels

theorem of_same {s t : Session} (hlabels : t.symbols.labels = s.symbols.labels)
    (hdrifts : t.symbols.drifts = s.symbols.drifts) (hpass : s.pass = .final → t.pass = .final) :
    s.KeepsLabels t where
  drifts := hdrifts ▸ List.prefix_refl _
  labels _ _ _ h := hlabels ▸ h
  pass := hpass

theorem refl (s : Session) : s.KeepsLabels s := of_same rfl rfl id

theorem trans (r s t : Session) (h : r.KeepsLabels s) (h' : s.KeepsLabels t) : r.KeepsLabels t where
  drifts := h.drifts.trans h'.drifts
  labels hnone name a hr := by
    have hbefore : s.symbols.drifts = [] := List.prefix_nil.mp (hnone ▸ h'.drifts)
    exact h'.labels hnone name a (h.labels hbefore name a hr)
  pass hfinal := h'.pass (h.pass hfinal)

/-- A definition adds a label, or repeats one, or lets one drift. -/
theorem definition {s t : Session} {name : String} {address : Option Number}
    {answer : Except Fault UInt16} (h : (Assembly.label name address).exec s = (answer, t)) :
    s.KeepsLabels t := by
  rw [Assembly.exec_label] at h
  generalize address.getD s.cursor.position = x at h
  cases hrun : (Symbols.define s.pass name x).exec s.symbols with
  | mk outcome symbols =>
      rw [hrun] at h
      cases h
      cases outcome with
      | error fault =>
          rw [Symbols.exec_define_eq_error hrun]
          exact refl s
      | ok a =>
          obtain ⟨-, hlabels, ⟨hdrifts, -⟩, hsame⟩ := Symbols.exec_define_eq_ok hrun
          refine ⟨hdrifts, fun hnone other b hb => ?_, id⟩
          show symbols.labels.find? other = some b
          rw [hlabels, Table.find?_insert]
          by_cases hname : name = other
          · rw [if_pos hname, hsame (Or.inr hnone) b (hname ▸ hb)]
          · rw [if_neg hname]
            exact hb

theorem step (s : Session) (e : Event) (t : Session) (h : s.Step e t) : s.KeepsLabels t := by
  cases h with
  | @lookup _ name _ hrun =>
      obtain ⟨references, hresolve⟩ := Assembly.exec_resolve name s
      rw [hresolve] at hrun
      cases hrun
      exact of_same rfl rfl id
  | definition hrun => exact definition hrun
  | @store _ address value _ hrun =>
      rcases Assembly.exec_storeByte_cases address value s with ⟨w, -, -, hstore⟩ | ⟨fault, hstore⟩
      all_goals
        rw [hstore] at hrun
        cases hrun
        exact of_same rfl rfl id
  | write hrun =>
      rw [Assembly.onMemory, Action.exec_onPart] at hrun
      cases hrun
      exact of_same rfl rfl id
  | other hspares => exact of_same hspares.labels hspares.drifts hspares.pass

theorem of_reaches {s t : Session} (h : s.Reaches t) : s.KeepsLabels t :=
  h.induct refl trans step

end KeepsLabels

/-- A label has the address that its definition answered. -/
theorem Step.label_of_definition {s t : Session} {name : String} {a : UInt16}
    (h : s.Step (.definition name (.ok a)) t) : t.symbols.labels.find? name = some a := by
  cases h with
  | @definition _ _ address _ hrun =>
      rw [Assembly.exec_label] at hrun
      obtain ⟨hanswer, hsession⟩ := Prod.mk.inj hrun
      have hdefine : (Symbols.define s.pass name (address.getD s.cursor.position)).exec s.symbols =
          (.ok a, t.symbols) := Prod.ext hanswer (congrArg Session.symbols hsession)
      rw [(Symbols.exec_define_eq_ok hdefine).2.1, Table.find?_insert, if_pos rfl]

/-- In the final pass a lookup answers the address of a label. -/
theorem Step.label_of_lookup {s t : Session} {name : String} {v : Value} (hpass : s.pass = .final)
    (h : s.Step (.lookup name (.ok v)) t) :
    ∃ a, s.symbols.labels.find? name = some a ∧ v = ⟨.ofAddress a, false⟩ := by
  cases h with
  | lookup hrun =>
      obtain ⟨references, hresolve⟩ := Assembly.exec_resolve name s
      rw [hresolve, hpass] at hrun
      have hlookup : s.symbols.lookup .final name = .ok v := congrArg Prod.fst hrun
      unfold Symbols.lookup at hlookup
      cases hname : s.symbols.labels.find? name with
      | none =>
          rw [hname] at hlookup
          exact nomatch hlookup
      | some a =>
          rw [hname] at hlookup
          exact ⟨a, rfl, (Except.ok.inj hlookup).symm⟩

/-- What was defined on the way is so in the end, if no label drifted. -/
theorem Path.label_of_definition {s t : Session} {es : List Event} (h : s.Path es t)
    (hnone : t.symbols.drifts = []) {name : String} {a : UInt16}
    (hdefinition : .definition name (.ok a) ∈ es) : t.symbols.labels.find? name = some a := by
  obtain ⟨before, after, rfl⟩ := List.append_of_mem hdefinition
  obtain ⟨u, u', -, hstep, hafter⟩ := h.parted
  exact (KeepsLabels.of_reaches ⟨after, hafter⟩).labels hnone name a hstep.label_of_definition

/-- What was looked up on the way through the final pass is so in the end, if no label drifted. -/
theorem Path.label_of_lookup {s t : Session} {es : List Event} (h : s.Path es t)
    (hpass : s.pass = .final) (hnone : t.symbols.drifts = []) {name : String} {v : Value}
    (hlookup : .lookup name (.ok v) ∈ es) :
    ∃ a, t.symbols.labels.find? name = some a ∧ v = ⟨.ofAddress a, false⟩ := by
  obtain ⟨before, after, rfl⟩ := List.append_of_mem hlookup
  obtain ⟨u, u', hbefore, hstep, hafter⟩ := h.parted
  have hfinal := (KeepsLabels.of_reaches ⟨before, hbefore⟩).pass hpass
  obtain ⟨a, ha, hv⟩ := hstep.label_of_lookup hfinal
  have hkept := KeepsLabels.of_reaches ⟨_, .cons hstep hafter⟩
  exact ⟨a, hkept.labels hnone name a ha, hv⟩

end Session

-- ── Compilations ────────────────────────────────────────────────────────────

/-- A program that compiles, whatever it does in either pass: both passes completed, every address that a
    definition answered in discovery is the label's in the result, and every lookup that succeeded in the
    final pass answered what the result says. -/
theorem labels_agree_with_compilation {program : Assembly Unit} {options : Options} {c : Compilation}
    (hprogram : program.Performs) (hcompile : (compile program options).1 = .ok c) :
    ∃ s last final, Session.create options.withStart = .ok s ∧
      program.exec s = (.ok (), last) ∧ program.exec last.turned = (.ok (), final) ∧
      s.Reaches last ∧ last.turned.Reaches final ∧
      (∀ es, s.Path es last → ∀ name a, Event.definition name (.ok a) ∈ es →
        c.labels.find? name = some a) ∧
      (∀ es, last.turned.Path es final → ∀ name v, Event.lookup name (.ok v) ∈ es →
        ∃ a, c.labels.find? name = some a ∧ v = ⟨.ofAddress a, false⟩) := by
  obtain ⟨s, last, final, hcreate, hdiscovery, hpass, hfinal, hdifferences, rfl⟩ :=
    compile_eq_ok hcompile
  obtain ⟨-, -, -, -, hnone⟩ := passDifferences_eq_nil_iff.mp hdifferences
  obtain ⟨journal, hturned⟩ := Session.turned_eq hpass
  have hreaches : last.turned.Reaches final := Action.Moves.of_exec hprogram hfinal
  have hkept := Session.KeepsLabels.of_reaches hreaches
  refine ⟨s, last, final, hcreate, hdiscovery, hfinal, Action.Moves.of_exec hprogram hdiscovery,
    hreaches, ?_, ?_⟩
  · intro es hpath name a hdefinition
    -- no label had drifted when discovery ended
    have hbefore : last.symbols.drifts = [] := by
      have hprefix := hkept.drifts
      rw [hnone, hturned] at hprefix
      exact List.prefix_nil.mp hprefix
    have hlast := hpath.label_of_definition hbefore hdefinition
    refine hkept.labels hnone name a ?_
    rw [hturned]
    exact hlast
  · intro es hpath name v hlookup
    exact hpath.label_of_lookup (by rw [hturned]) hnone hlookup

/-- A program that does more in the final pass: it catches a definition that fails, defines a label that
    discovery did not know, and looks it up. -/
def wayward : Assembly Unit := do
  let _ ← Assembly.label "both" (some 0x1234)
  let s ← get
  match s.pass with
  | .discovery => pure ()
  | .final =>
    let _ ← (Assembly.label "nowhere" (some 0x10000)).outcome
    let _ ← Assembly.label "late" none
    let _ ← Assembly.resolve "late"

theorem performs_wayward : wayward.Performs := by
  have hlabel : ∀ name address, (Assembly.label name address).Performs :=
    Session.followed_reaches.label
  have hresolve : ∀ name, (Assembly.resolve name).Performs := Session.followed_reaches.resolve
  refine .bind (hlabel _ _) (fun _ => .bySession (fun s => ?_))
  cases s.pass with
  | discovery => exact .pure ()
  | final =>
      refine .bind (.outcome (hlabel _ _)) (fun _ => .bind (hlabel _ _) (fun _ => ?_))
      exact .bind (hresolve _) (fun _ => .pure ())

theorem wayward_labels_agree :
    ∃ c, (compile wayward {}).1 = .ok c ∧
      c.labels.toList = [("both", 0x1234), ("late", 0x1000)] ∧
      ∃ s last final, Session.create ({} : Options).withStart = .ok s ∧
        wayward.exec s = (.ok (), last) ∧ wayward.exec last.turned = (.ok (), final) ∧
        s.Reaches last ∧ last.turned.Reaches final ∧
        (∀ es, s.Path es last → ∀ name a, Event.definition name (.ok a) ∈ es →
          c.labels.find? name = some a) ∧
        (∀ es, last.turned.Path es final → ∀ name v, Event.lookup name (.ok v) ∈ es →
          ∃ a, c.labels.find? name = some a ∧ v = ⟨.ofAddress a, false⟩) := by
  have hlabels : (compile wayward {}).1.map (·.labels.toList) =
      .ok [("both", 0x1234), ("late", 0x1000)] := by decide +kernel
  obtain ⟨c, hc⟩ := Check.exists_of_map hlabels
  rw [hc] at hlabels
  exact ⟨c, hc, Except.ok.inj hlabels, labels_agree_with_compilation performs_wayward hc⟩

end Asm6502
