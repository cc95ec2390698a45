import TokenGrammar.Proofs.Ownership
import TokenGrammar.Proofs.Running

/-!
# Actions of a builder

Every action leaves a sound builder behind, also when it fails half-way. What is asked of a builder
from outside are requests; whatever the requests are, the builder that has served them is sound.
-/

namespace TokenGrammar.Builder

variable {α β : Type} {P : Builder → Prop} {held kept : List Expr} {e : Expr}

theorem slot_apply (e : NodeRef) (b : Builder) :
    slot e b = ((b.slot? e).elim (.error (.defect (.foreignNode e))) .ok, b) := by
  rw [slot, get_bind_apply]
  cases b.slot? e <;> rfl

theorem isTerminal_apply (r : NodeRef) (b : Builder) :
    isTerminal r b =
      ((b.slot? r).elim (.error (.defect (.foreignNode r))) fun s => .ok s.terminal, b) := by
  rw [isTerminal, bind_apply, slot_apply]
  cases b.slot? r <;> rfl

/-- To find out whether a new node is a terminal changes nothing. -/
theorem terminalFlag_snd (e : Expr) (b : Builder) : (terminalFlag e b).2 = b := by
  cases e with
  | alt q l r | conj q l r =>
    rw [terminalFlag, bind_apply, isTerminal_apply]
    cases b.slot? l.ref with
    | none => rfl
    | some s =>
      obtain ⟨x, t, i⟩ := s
      cases t with
      | true =>
        show (isTerminal r.ref b).2 = b
        rw [isTerminal_apply]
      | false => rfl
  | token | eps | seq | plus | call | endMark => rfl

section Add

variable {b : Builder} {make : NodeRef → Expr}

theorem add_ok {t : Bool} (h : (terminalFlag (make ⟨b.id, b.slots.size⟩) b).1 = .ok t) :
    add make b = (.ok (make ⟨b.id, b.slots.size⟩),
      { b with slots := b.slots.push ⟨make ⟨b.id, b.slots.size⟩, t, false⟩ }) := by
  rw [add, get_bind_apply, bind_apply, h, terminalFlag_snd]
  rfl

theorem add_error {f : Failure} (h : (terminalFlag (make ⟨b.id, b.slots.size⟩) b).1 = .error f) :
    add make b = (.error f, b) := by
  rw [add, get_bind_apply, bind_apply, h, terminalFlag_snd]

end Add

/-- Nodes that are held are marked as their trees say. -/
theorem Sound.terminal_of_held {b : Builder} (h : Sound held kept b) (he : e ∈ held) {t : Bool}
    (ht : (isTerminal e.ref b).1 = .ok t) : t = e.isTerminal := by
  rw [isTerminal_apply, slot?] at ht
  split at ht
  · rw [h.taken e he] at ht
    exact (Except.ok.inj ht).symm
  · cases ht

theorem Sound.terminalFlag_eq {b : Builder} (h : Sound (e.operands ++ held) kept b) {t : Bool}
    (ht : (terminalFlag e b).1 = .ok t) : t = e.isTerminal := by
  cases e with
  | token | eps | seq | plus | call | endMark => exact (Except.ok.inj ht).symm
  | alt q l r | conj q l r =>
    have hl : ∀ {t}, (isTerminal l.ref b).1 = .ok t → t = l.isTerminal :=
      h.terminal_of_held (by simp [Expr.operands])
    have hr : ∀ {t}, (isTerminal r.ref b).1 = .ok t → t = r.isTerminal :=
      h.terminal_of_held (by simp [Expr.operands])
    have hb : (isTerminal l.ref b).2 = b := by rw [isTerminal_apply]
    rw [terminalFlag, bind_apply, hb] at ht
    rw [Expr.isTerminal]
    -- the right operand is only looked at when the left one is a terminal
    cases hlt : (isTerminal l.ref b).1 with
    | error f =>
      rw [hlt] at ht
      cases ht
    | ok tl =>
      rw [hlt] at ht
      rw [← hl hlt]
      cases tl with
      | true => exact hr ht
      | false => exact (Except.ok.inj ht).symm

/-- From states in which `P` holds the action comes to a state in which `Q` holds of the result, or
fails and leaves a sound builder. -/
def Does (P : Builder → Prop) (act : BuildM α) (Q : α → Builder → Prop) : Prop :=
  ∀ b, P b →
    match (act b).1 with
    | .ok a => Q a (act b).2
    | .error _ => Sound [] [] (act b).2

namespace Does

variable {act : BuildM α} {next : α → BuildM β} {Q : β → Builder → Prop} {R : α → Builder → Prop}

theorem pure {a : α} (h : ∀ b, P b → R a b) : Does P (Pure.pure a) R := h

theorem fail {f : Failure} (h : ∀ b, P b → Sound [] [] b) : Does P (throw f : BuildM α) R := h

theorem bind (h : Does P act R) (h' : ∀ a, Does (R a) (next a) Q) : Does P (act >>= next) Q := by
  intro b hb
  have ha := h b hb
  rw [bind_apply]
  cases hx : (act b).1 with
  | ok a =>
    rw [hx] at ha
    exact h' a _ ha
  | error f =>
    rw [hx] at ha
    exact ha

theorem weaken (h : Does P act R) {P' : Builder → Prop} {R' : α → Builder → Prop}
    (hP : ∀ b, P' b → P b) (hR : ∀ a b, R a b → R' a b) : Does P' act R' := by
  intro b hb
  have ha := h b (hP b hb)
  cases hx : (act b).1 with
  | ok a =>
    rw [hx] at ha
    exact hR a _ ha
  | error f =>
    rw [hx] at ha
    exact ha

end Does

/-- A node that is not installed. -/
def Loose (b : Builder) (e : Expr) : Prop := b.slots[e.ref.index]? = some (.of e false)

theorem does_add {make : NodeRef → Expr} (ops : List Expr) (href : ∀ r, (make r).ref = r)
    (hops : ∀ r, (make r).operands = ops) (hend : ∀ r q, make r ≠ .endMark q)
    (hP : ∀ b, P b → Sound (ops ++ held) kept b ∧
      ∀ r k, (make r).callee? = some k → k.index < b.rules.size) :
    Does P (add make) fun e b => Sound held kept b ∧ b.Loose e := by
  intro b hb
  obtain ⟨hs, hc⟩ := hP b hb
  have hi : (make ⟨b.id, b.slots.size⟩).ref.index = b.slots.size := by rw [href]
  rw [← hops ⟨b.id, b.slots.size⟩] at hs
  cases ht : (terminalFlag (make ⟨b.id, b.slots.size⟩) b).1 with
  | error f =>
    rw [add_error ht]
    exact hs.loose
  | ok t =>
    obtain rfl := hs.terminalFlag_eq ht
    rw [add_ok ht]
    refine ⟨hs.add hi (hc _) (hend _), ?_⟩
    show (b.slots.push _)[_]? = _
    rw [hi, Array.getElem?_push_size]

theorem does_slot (hP : ∀ b, P b → Sound [] [] b) (r : NodeRef) :
    Does P (slot r) fun s b => P b ∧ b.slots[r.index]? = some s := by
  refine Does.bind (R := fun c b => P b ∧ c = b) (fun b hb => ⟨hb, rfl⟩) fun c => ?_
  cases hs : c.slot? r with
  | none => exact .fail fun b hb => hP b hb.1
  | some s =>
    refine .pure fun b ⟨hb, hc⟩ => ⟨hb, ?_⟩
    rw [hc, slot?] at hs
    split at hs
    · exact hs
    · cases hs

theorem does_ruleDecl (hP : ∀ b, P b → Sound [] [] b) (r : RuleRef) :
    Does P (ruleDecl r) fun d b => P b ∧ b.rules[r.index]? = some d := by
  refine Does.bind (R := fun c b => P b ∧ c = b) (fun b hb => ⟨hb, rfl⟩) fun c => ?_
  cases hd : c.ruleDecl? r with
  | none => exact .fail fun b hb => hP b hb.1
  | some d =>
    refine .pure fun b ⟨hb, hc⟩ => ⟨hb, ?_⟩
    rw [hc, ruleDecl?] at hd
    split at hd
    · exact hd
    · cases hd

theorem does_mark (hP : ∀ b, P b → Sound held kept b ∧ b.Loose e) :
    Does P (markInstalled e.ref) fun _ => Sound (e :: held) kept :=
  fun b hb => (hP b hb).1.mark (hP b hb).2

theorem does_install (he : e ∈ kept) {copied : BuildM Expr}
    (hc : Does (Sound held kept) copied fun c b => Sound held kept b ∧ b.Loose c) :
    Does (Sound held kept) (install e copied) fun c => Sound (c :: held) kept := by
  have hloose : Does (Sound held kept) (isInstalled e.ref) fun i b =>
      Sound held kept b ∧ (i = false → b.Loose e) := by
    refine (does_slot (fun b hb => hb.loose) e.ref).bind fun s => .pure fun b ⟨hb, hs⟩ => ?_
    refine ⟨hb, fun hi => ?_⟩
    obtain ⟨f, hf⟩ := hb.stored e he
    rw [hs] at hf
    cases hf
    obtain rfl : f = false := hi
    exact hs
  have hmark : ∀ c : Expr, Does (fun b => Sound held kept b ∧ b.Loose c)
      (do markInstalled c.ref; return c) fun c => Sound (c :: held) kept :=
    fun c => (does_mark fun b hb => hb).bind fun _ => .pure fun b hb => hb
  refine hloose.bind fun i => ?_
  cases i with
  | true => exact (hc.weaken (fun b hb => hb.1) fun _ _ h => h).bind hmark
  | false =>
    have hpure : Does (fun b => Sound held kept b ∧ (false = false → b.Loose e)) (pure e)
        fun c b => Sound held kept b ∧ b.Loose c := .pure fun b hb => ⟨hb.1, hb.2 rfl⟩
    exact hpure.bind hmark

theorem does_addCall (rule : RuleRef) :
    Does (Sound held kept) (addCall rule) fun e b => Sound held kept b ∧ b.Loose e := by
  refine (does_ruleDecl (fun b hb => hb.loose) rule).bind fun d => ?_
  have hset : Does (fun b => Sound held kept b ∧ b.rules[rule.index]? = some d)
      (setRule rule { d with sites := d.sites + 1 }) fun _ b =>
      Sound held kept b ∧ rule.index < b.rules.size := by
    rintro b ⟨hb, hd⟩
    have hlt := (Array.getElem?_eq_some_iff.1 hd).1
    have hsize : (b.rules.modify rule.index fun _ => { d with sites := d.sites + 1 }).size
        = b.rules.size := Array.size_modify
    refine ⟨hb.congr rfl (fun p => ?_) (Nat.le_of_eq hsize.symm), ?_⟩
    · cases p with
      | operand i k => rfl
      | body r =>
        show Option.bind ((b.rules.modify _ _)[r]?) _ = Option.bind _ _
        rw [Array.getElem?_modify]
        split
        · rename_i hr
          rw [← hr, hd]
          rfl
        · rfl
    · exact Nat.lt_of_lt_of_eq hlt hsize.symm
  refine hset.bind fun _ => does_add [] (fun _ => rfl) (fun _ => rfl) (fun r q h => ?_) ?_
  · cases h
  · rintro b ⟨hb, hlt⟩
    refine ⟨hb, fun r k hk => ?_⟩
    obtain rfl := Option.some.inj hk
    exact hlt

theorem does_make {make : NodeRef → Expr} (ops : List Expr) (href : ∀ q, (make q).ref = q)
    (hops : ∀ q, (make q).operands = ops) (hend : ∀ q q', make q ≠ .endMark q')
    (hcall : ∀ q, (make q).callee? = none) {held' : List Expr} (hh : held'.Perm (ops ++ held)) :
    Does (Sound held' kept) (add make) fun e b => Sound held kept b ∧ b.Loose e := by
  refine does_add ops href hops hend fun b hb => ⟨hb.perm hh, fun q k hk => ?_⟩
  rw [hcall] at hk
  cases hk

theorem does_token (test : TokenTest) :
    Does (Sound held kept) (add fun q => .token q test) fun e b => Sound held kept b ∧ b.Loose e :=
  does_make [] (fun _ => rfl) (fun _ => rfl) (fun _ _ h => by cases h) (fun _ => rfl) (.refl _)

theorem does_eps : Does (Sound held kept) (add .eps) fun e b => Sound held kept b ∧ b.Loose e :=
  does_make [] (fun _ => rfl) (fun _ => rfl) (fun _ _ h => by cases h) (fun _ => rfl) (.refl _)

theorem does_alt (l r : Expr) : Does (Sound (r :: l :: held) kept) (add fun q => .alt q l r)
    fun e b => Sound held kept b ∧ b.Loose e :=
  does_make [l, r] (fun _ => rfl) (fun _ => rfl) (fun _ _ h => by cases h) (fun _ => rfl)
    (.swap l r held)

theorem does_seq (l r : Expr) : Does (Sound (r :: l :: held) kept) (add fun q => .seq q l r)
    fun e b => Sound held kept b ∧ b.Loose e :=
  does_make [l, r] (fun _ => rfl) (fun _ => rfl) (fun _ _ h => by cases h) (fun _ => rfl)
    (.swap l r held)

theorem does_conj (l r : Expr) : Does (Sound (r :: l :: held) kept) (add fun q => .conj q l r)
    fun e b => Sound held kept b ∧ b.Loose e :=
  does_make [l, r] (fun _ => rfl) (fun _ => rfl) (fun _ _ h => by cases h) (fun _ => rfl)
    (.swap l r held)

theorem does_plus (c : Expr) : Does (Sound (c :: held) kept) (add fun q => .plus q c)
    fun e b => Sound held kept b ∧ b.Loose e :=
  does_make [c] (fun _ => rfl) (fun _ => rfl) (fun _ _ h => by cases h) (fun _ => rfl) (.refl _)

private theorem does_with_operands (he : e ∈ kept) {act : BuildM Expr}
    (h : Does (Sound held (e.operands ++ kept)) act fun c b =>
      Sound held (e.operands ++ kept) b ∧ b.Loose c) :
    Does (Sound held kept) act fun c b => Sound held kept b ∧ b.Loose c := by
  refine h.weaken (fun b hb => hb.keep fun c hc => ?_) fun c b ⟨hb, hc⟩ => ⟨?_, hc⟩
  · exact (hb.stored_operand (hb.stored e he) hc).1
  · exact hb.drop (.refl _) fun x hx => List.mem_append_right _ hx

theorem does_copyTree (he : e ∈ kept) :
    Does (Sound held kept) (copyTree e) fun c b => Sound held kept b ∧ b.Loose c := by
  induction e generalizing held kept with
  | token q t => exact does_token t
  | eps q => exact does_eps
  | endMark q =>
    intro b hb
    obtain ⟨f, hf⟩ := hb.stored _ he
    exact absurd rfl (hb.noEnd _ _ q hf)
  | alt q l r ihl ihr =>
    apply does_with_operands he
    refine (does_install (by simp [Expr.operands]) (ihl (by simp [Expr.operands]))).bind fun a => ?_
    refine (does_install (by simp [Expr.operands]) (ihr (by simp [Expr.operands]))).bind fun c => ?_
    exact does_alt a c
  | seq q l r ihl ihr =>
    apply does_with_operands he
    refine (does_install (by simp [Expr.operands]) (ihl (by simp [Expr.operands]))).bind fun a => ?_
    refine (does_install (by simp [Expr.operands]) (ihr (by simp [Expr.operands]))).bind fun c => ?_
    exact does_seq a c
  | conj q l r ihl ihr =>
    apply does_with_operands he
    refine (does_install (by simp [Expr.operands]) (ihl (by simp [Expr.operands]))).bind fun a => ?_
    refine (does_install (by simp [Expr.operands]) (ihr (by simp [Expr.operands]))).bind fun c => ?_
    exact does_conj a c
  | plus q c ih =>
    apply does_with_operands he
    refine (does_install (by simp [Expr.operands]) (ih (by simp [Expr.operands]))).bind fun a => ?_
    exact does_plus a
  | call q k s => exact does_addCall k

theorem does_node (r : NodeRef) : Does (Sound held []) (node r) fun e => Sound held [e] := by
  refine (does_slot (fun b hb => hb.loose) r).bind fun s => .pure fun b ⟨hb, hs⟩ => ?_
  have hkeep : ∀ e ∈ [s.expr], b.Stored e := by
    intro e he
    obtain rfl := List.mem_singleton.1 he
    exact hb.stored_slot hs
  exact hb.keep hkeep

theorem does_take (r : NodeRef) :
    Does (Sound held []) (take r) fun e => Sound (e :: held) [] := by
  refine (does_node r).bind fun e => ?_
  have he : e ∈ [e] := List.mem_singleton.2 rfl
  refine (does_install he (does_copyTree he)).weaken (fun b hb => hb) fun c b hb => ?_
  exact hb.drop (.refl _) (by simp)

/-- The builder is sound before and after the action, also when it fails. -/
def Safe (act : BuildM α) : Prop := Does (Sound [] []) act fun _ => Sound [] []

namespace Safe

theorem pure (a : α) : Safe (Pure.pure a) := Does.pure fun _ hb => hb

theorem bind {act : BuildM α} {next : α → BuildM β} (h : Safe act) (h' : ∀ a, Safe (next a)) :
    Safe (act >>= next) := Does.bind h h'

theorem foldlM {step : β → α → BuildM β} (h : ∀ b a, Safe (step b a)) (xs : List α) (b : β) :
    Safe (xs.foldlM step b) := by
  induction xs generalizing b with
  | nil => exact .pure b
  | cons x xs ih =>
    rw [List.foldlM_cons]
    exact (h b x).bind ih

theorem mapM {f : α → BuildM β} (h : ∀ a, Safe (f a)) (xs : List α) : Safe (xs.mapM f) := by
  induction xs with
  | nil => exact .pure []
  | cons x xs ih =>
    rw [List.mapM_cons]
    exact (h x).bind fun y => ih.bind fun ys => .pure (y :: ys)

end Safe

private theorem safe_ref {P : Builder → Prop} {act : BuildM Expr}
    (h : Does P act fun e b => Sound [] [] b ∧ b.Loose e) :
    Does P (do return (← act).ref) fun _ => Sound [] [] :=
  h.bind fun _ => .pure fun _ hb => hb.1

theorem safe_token (test : TokenTest) : Safe (token test) := safe_ref (does_token test)

theorem safe_eps : Safe eps := safe_ref does_eps

theorem safe_alt (l r : NodeRef) : Safe (alt l r) := by
  refine (does_take l).bind fun a => (does_take r).bind fun c => ?_
  exact safe_ref (does_alt a c)

theorem safe_seq (l r : NodeRef) : Safe (seq l r) := by
  refine (does_take l).bind fun a => (does_take r).bind fun c => ?_
  exact safe_ref (does_seq a c)

theorem safe_conj (l r : NodeRef) : Safe (conj l r) := by
  refine (does_take l).bind fun a => (does_take r).bind fun c => ?_
  exact safe_ref (does_conj a c)

theorem safe_plus (e : NodeRef) : Safe (plus e) :=
  (does_take e).bind fun a => safe_ref (does_plus a)

theorem safe_maybe (e : NodeRef) : Safe (maybe e) := safe_eps.bind fun _ => safe_alt e _

theorem safe_star (e : NodeRef) : Safe (star e) := (safe_plus e).bind safe_maybe

theorem safe_select (es : List NodeRef) : Safe (select es) := by
  cases es with
  | nil => exact safe_eps
  | cons e es => exact .foldlM safe_alt es e

theorem safe_join (es : List NodeRef) : Safe (join es) := by
  cases es with
  | nil => exact safe_eps
  | cons e es => exact .foldlM safe_seq es e

theorem safe_literal (s : String) : Safe (literal s) :=
  (Safe.mapM (fun _ => safe_token _) _).bind safe_join

theorem safe_tokenRange (lo hi : Token) : Safe (tokenRange lo hi) :=
  (safe_token _).bind fun ge => (safe_token _).bind fun le => safe_conj ge le

theorem safe_consume (e : NodeRef) : Safe (consume e) :=
  (does_take e).bind fun _ => .pure fun _ hb => hb.loose

theorem safe_rule (name : String) : Safe (rule name) := by
  intro b hb
  refine hb.congr rfl (fun p => ?_) ?_
  · cases p with
    | operand i k => rfl
    | body r =>
      show Option.bind ((b.rules.push _)[r]?) _ = Option.bind _ _
      rw [Array.getElem?_push]
      split
      · rename_i hr
        rw [hr, Array.getElem?_eq_none (Nat.le_refl _)]
        rfl
      · rfl
  · show b.rules.size ≤ (b.rules.push _).size
    rw [Array.size_push]
    exact Nat.le_succ _

theorem safe_call (r : RuleRef) : Safe (call r) := safe_ref (does_addCall r)

theorem safe_copy (e : NodeRef) : Safe (copy e) := by
  refine (does_node e).bind fun x => (does_copyTree (List.mem_singleton.2 rfl)).bind fun c => ?_
  exact .pure fun b hb => hb.1.loose

theorem does_setRule (r : RuleRef) {d : RuleDecl} (hd : d.body = some e) :
    Does (Sound (e :: held) kept) (setRule r d) fun _ => Sound held kept :=
  fun _ hb => hb.setRule r.index hd

theorem safe_setBody (r : RuleRef) (body : NodeRef) : Safe (setBody r body) := by
  have hset : Safe (do
      let tree ← take body
      setRule r { (← ruleDecl r) with body := some tree }) := by
    refine (does_take body).bind fun tree => ?_
    refine (does_ruleDecl (fun b hb => hb.loose) r).bind fun d => ?_
    exact (does_setRule r rfl).weaken (fun b hb => hb.1) fun _ _ hb => hb
  have hrefuse : ∀ {α : Type} {cause : Refusal}, Safe (refuse cause : BuildM α) :=
    fun b hb => hb
  have hget : Safe (get : BuildM Builder) := fun b hb => hb
  refine Safe.bind hget fun b => ?_
  cases b.ruleDecl? r with
  | none => exact hrefuse
  | some d =>
    have hsecond : Safe (do
        if d.body.isSome then refuse (.bodyAlreadySet d.name)
        let tree ← take body
        setRule r { (← ruleDecl r) with body := some tree }) := by
      split
      · exact hrefuse.bind fun _ => hset
      · exact hset
    dsimp only
    split
    · exact hrefuse.bind fun _ => hsecond
    · exact hsecond

/-- What can be asked of a builder. -/
inductive Request
  | token (test : TokenTest)
  | eps
  | alt (left right : NodeRef)
  | seq (left right : NodeRef)
  | conj (left right : NodeRef)
  | plus (body : NodeRef)
  | maybe (body : NodeRef)
  | star (body : NodeRef)
  | select (options : List NodeRef)
  | join (values : List NodeRef)
  | literal (text : String)
  | tokenRange (lo hi : Token)
  | consume (node : NodeRef)
  | copy (node : NodeRef)
  | rule (name : String)
  | call (rule : RuleRef)
  | setBody (rule : RuleRef) (body : NodeRef)
  deriving DecidableEq, Repr

def Request.action : Request → BuildM Unit
  | token test => discard (Builder.token test)
  | eps => discard Builder.eps
  | alt l r => discard (Builder.alt l r)
  | seq l r => discard (Builder.seq l r)
  | conj l r => discard (Builder.conj l r)
  | plus e => discard (Builder.plus e)
  | maybe e => discard (Builder.maybe e)
  | star e => discard (Builder.star e)
  | select es => discard (Builder.select es)
  | join es => discard (Builder.join es)
  | literal s => discard (Builder.literal s)
  | tokenRange lo hi => discard (Builder.tokenRange lo hi)
  | consume e => discard (Builder.consume e)
  | copy e => discard (Builder.copy e)
  | rule name => discard (Builder.rule name)
  | call r => discard (Builder.call r)
  | setBody r e => Builder.setBody r e

/-- The builder after some requests. A request that fails may have changed it as well. -/
def serve (b : Builder) (requests : List Request) : Builder :=
  requests.foldl (fun b q => (q.action.run.run b).2) b

theorem Request.safe (q : Request) : Safe q.action := by
  have hdiscard : ∀ {α : Type} {act : BuildM α}, Safe act → Safe (discard act) :=
    fun h => h.bind fun _ => .pure ()
  cases q with
  | token test => exact hdiscard (safe_token test)
  | eps => exact hdiscard safe_eps
  | alt l r => exact hdiscard (safe_alt l r)
  | seq l r => exact hdiscard (safe_seq l r)
  | conj l r => exact hdiscard (safe_conj l r)
  | plus e => exact hdiscard (safe_plus e)
  | maybe e => exact hdiscard (safe_maybe e)
  | star e => exact hdiscard (safe_star e)
  | select es => exact hdiscard (safe_select es)
  | join es => exact hdiscard (safe_join es)
  | literal s => exact hdiscard (safe_literal s)
  | tokenRange lo hi => exact hdiscard (safe_tokenRange lo hi)
  | consume e => exact hdiscard (safe_consume e)
  | copy e => exact hdiscard (safe_copy e)
  | rule name => exact hdiscard (safe_rule name)
  | call r => exact hdiscard (safe_call r)
  | setBody r e => exact safe_setBody r e

theorem Safe.run {act : BuildM α} (h : Safe act) {b : Builder} (hb : Sound [] [] b) :
    Sound [] [] (act.run.run b).2 := by
  have hrun := h b hb
  split at hrun
  · exact hrun
  · exact hrun

/-- Whatever is asked of a new builder, it is sound. -/
theorem sound_serve (id : Nat) (requests : List Request) :
    Sound [] [] ((new id).serve requests) := by
  have hserve : ∀ b, Sound [] [] b → Sound [] [] (b.serve requests) := by
    induction requests with
    | nil => exact fun b hb => hb
    | cons q requests ih => exact fun b hb => ih _ (q.safe.run hb)
  exact hserve _ (sound_new id)

end TokenGrammar.Builder
