import Mathlib.Data.List.Forall2
import Scriptlet.Proofs.Walk

/-!
Tokens that differ in their places only. No step of a walk looks at a place, so
walks over alike tokens find alike statements and alike faults. How the places
are related is left open.
-/

namespace Scriptlet

section
variable (near : Nat → Nat → Prop)

structure Token.Alike (t u : Token) : Prop where
  kind : u.kind = t.kind
  literal : u.literal = t.literal
  start : near t.start u.start
  stop : near t.stop u.stop

inductive Statement.Alike : Statement → Statement → Prop
  | letBinding {t u : Token} {name name' : Identifier} (token : t.Alike near u)
      (named : name.token.Alike near name'.token) (value : name'.value = name.value) :
      Alike (.letBinding t name none) (.letBinding u name' none)
  | returnValue {t u : Token} (token : t.Alike near u) :
      Alike (.returnValue t none) (.returnValue u none)

structure Diagnostic.Alike (d e : Diagnostic) : Prop where
  fault : e.fault = d.fault
  position : near d.position.toNat e.position.toNat

structure Walk.Alike (w v : Walk) : Prop where
  statements : List.Forall₂ (Statement.Alike near) w.statements v.statements
  diagnostics : List.Forall₂ (Diagnostic.Alike near) w.diagnostics v.diagnostics
  whole : v.whole = w.whole

end

section
variable {near : Nat → Nat → Prop}

theorem Statement.Alike.render {s s' : Statement} (h : s.Alike near s') :
    s'.render = s.render := by
  cases h with
  | letBinding token named value =>
    simp only [Statement.render, Identifier.render, token.literal, value]
  | returnValue token => simp only [Statement.render, token.literal]

theorem Program.render_of_alike {statements read : List Statement}
    (h : List.Forall₂ (Statement.Alike near) statements read) :
    Program.render ⟨read⟩ = Program.render ⟨statements⟩ := by
  induction h with
  | nil => rfl
  | cons same more ih => rw [render_cons, render_cons, same.render, ih]

theorem Diagnostic.map_fault_of_alike {α : Type} (f : Fault → α) {ds es : List Diagnostic}
    (h : List.Forall₂ (Diagnostic.Alike near) ds es) :
    es.map (f ·.fault) = ds.map (f ·.fault) := by
  induction h with
  | nil => rfl
  | cons same more ih => rw [List.map_cons, List.map_cons, same.fault, ih]

end

namespace Walk

section
variable {near : Nat → Nat → Prop} {t u : Token} {ts us : List Token}

theorem unexpected_alike (h : t.Alike near u) (expected : TokenKind) :
    (Parser.unexpected expected t).Alike near (Parser.unexpected expected u) where
  fault := by simp only [Parser.unexpected, h.kind, h.literal]
  position := h.start

theorem unrecognised_alike (h : t.Alike near u) :
    (Parser.unrecognised t).Alike near (Parser.unrecognised u) where
  fault := by simp only [Parser.unrecognised, h.kind, h.literal]
  position := h.start

theorem Alike.emit {w v : Walk} {s s' : Statement} (h : w.Alike near v)
    (same : s.Alike near s') : (w.emit s).Alike near (v.emit s') where
  statements := .cons same h.statements
  diagnostics := h.diagnostics
  whole := h.whole

theorem Alike.report {w v : Walk} {d e : Diagnostic} (h : w.Alike near v)
    (same : d.Alike near e) : (w.report d).Alike near (v.report e) where
  statements := h.statements
  diagnostics := .cons same h.diagnostics
  whole := h.whole

theorem alike_finished : finished.Alike near finished := ⟨.nil, .nil, rfl⟩

theorem alike_stranded : stranded.Alike near stranded := ⟨.nil, .nil, rfl⟩

theorem exists_afterSemicolon (h : List.Forall₂ (Token.Alike near) ts us) {left : List Token}
    (closed : afterSemicolon ts = some left) :
    ∃ left', afterSemicolon us = some left' ∧ List.Forall₂ (Token.Alike near) left left' := by
  induction h with
  | nil => simp [afterSemicolon] at closed
  | @cons t u ts us same more ih =>
    rw [afterSemicolon] at closed ⊢
    rw [same.kind]
    split at closed
    · next found =>
      obtain rfl := Option.some.inj closed
      rw [if_pos found]
      exact ⟨us, rfl, more⟩
    · next other =>
      rw [if_neg other]
      exact ih closed

theorem afterSemicolon_missing (h : List.Forall₂ (Token.Alike near) ts us)
    (missing : afterSemicolon ts = none) : afterSemicolon us = none := by
  induction h with
  | nil => rfl
  | @cons t u ts us same more ih =>
    rw [afterSemicolon] at missing ⊢
    rw [same.kind]
    split at missing
    · simp at missing
    · next other =>
      rw [if_neg other]
      exact ih missing

theorem along_alike {strict : Bool} (h : List.Forall₂ (Token.Alike near) ts us) :
    (along strict ts).Alike near (along strict us) := by
  fun_induction along strict ts generalizing us with
  | case1 =>
    obtain rfl := List.forall₂_nil_left_iff.1 h
    rw [along]
    exact alike_finished
  | case2 t rest ended =>
    obtain - | ⟨same, more⟩ := h
    rw [along_ended (same.kind.trans ended)]
    exact alike_finished
  | case3 t word =>
    obtain - | ⟨same, - | -⟩ := h
    rw [along.eq_def]
    simp only [same.kind, word]
    exact alike_finished
  | case4 t word name named =>
    obtain - | ⟨same, - | ⟨same', - | -⟩⟩ := h
    rw [along.eq_def]
    simp only [same.kind, word, same'.kind, named, if_true]
    exact alike_finished
  | case5 t word name named sign rest assigned missing =>
    obtain - | ⟨same, - | ⟨same', - | ⟨same'', more⟩⟩⟩ := h
    rw [along_let_unclosed (same.kind.trans word) (same'.kind.trans named)
      (same''.kind.trans assigned) (afterSemicolon_missing more missing)]
    exact alike_stranded
  | case6 t word name named sign rest assigned left closed ih =>
    obtain - | ⟨same, - | ⟨same', - | ⟨same'', more⟩⟩⟩ := h
    obtain ⟨left', closed', behind⟩ := exists_afterSemicolon more closed
    rw [along_letBinding (same.kind.trans word) (same'.kind.trans named)
      (same''.kind.trans assigned) closed']
    exact (ih behind).emit (.letBinding same same' same'.literal)
  | case7 t word name named sign rest other ih =>
    obtain - | ⟨same, - | ⟨same', - | ⟨same'', more⟩⟩⟩ := h
    rw [along_unassigned (same.kind.trans word) (same'.kind.trans named)
      (by rwa [same''.kind])]
    exact (ih (.cons same'' more)).report (unexpected_alike same'' .assign)
  | case8 t word name rest other ih =>
    obtain - | ⟨same, - | ⟨same', more⟩⟩ := h
    rw [along_unnamed (same.kind.trans word) (by rwa [same'.kind])]
    exact (ih (.cons same' more)).report (unexpected_alike same' .identifier)
  | case9 t rest word missing =>
    obtain - | ⟨same, more⟩ := h
    rw [along_return_unclosed (same.kind.trans word) (afterSemicolon_missing more missing)]
    exact alike_stranded
  | case10 t rest word left closed ih =>
    obtain - | ⟨same, more⟩ := h
    obtain ⟨left', closed', behind⟩ := exists_afterSemicolon more closed
    rw [along_returnValue (same.kind.trans word) closed']
    exact (ih behind).emit (.returnValue same)
  | case11 t rest strict ended binds returns ih =>
    obtain - | ⟨same, more⟩ := h
    rw [along_unrecognised (by rwa [same.kind]) (by rwa [same.kind]) (by rwa [same.kind]),
      if_pos strict]
    exact (ih more).report (unrecognised_alike same)
  | case12 t rest lenient ended binds returns ih =>
    obtain - | ⟨same, more⟩ := h
    rw [along_unrecognised (by rwa [same.kind]) (by rwa [same.kind]) (by rwa [same.kind]),
      if_neg lenient]
    exact ih more

end

end Walk

end Scriptlet
