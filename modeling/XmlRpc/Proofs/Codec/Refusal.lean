/-
# Slots that refuse a message

A slot that is received *whole* takes what it is sent, or is left as it was:

    scalars, unit, value   there is nothing but the whole
    lists, maps, tables    what is received is put together first, and goes
                           in once all of it fits
    boxes                  if what is inside is received whole

Options, records and faults are not.  Inside a list or a map they are put
together in a slot of their own, which is thrown away with what has got into
it.
-/
import XmlRpc.Proofs.Codec.Isolation
import XmlRpc.Proofs.Native.Fits

namespace XmlRpc

namespace Native

variable {Γ : Schema} {s : Shape} {x : Native} {m : Misfit}

/-- Whether a slot of the shape takes all that it is sent or nothing. -/
def Shape.Whole : Shape → Prop
  | .option _ | .record _ | .fault => False
  | .boxed s => s.Whole
  | _ => True

/-! ## Projections -/

/-- A slot that holds no others is overwritten, or left alone. -/
theorem assignPlain_cases (v : Value) (s : Shape) (x : Native) :
    (∃ y, assignPlain v s x = .done y) ∨ ∃ m, assignPlain v s x = .refused x m := by
  unfold assignPlain
  split
  case h_4 =>
    -- a whole number, in range or not
    split
    · exact .inl ⟨_, rfl⟩
    · exact .inr ⟨_, rfl⟩
  case h_11 =>
    -- a clock, on the calendar or off it
    split
    · exact .inl ⟨_, rfl⟩
    · exact .inr ⟨_, rfl⟩
  case h_12 => exact .inr ⟨_, rfl⟩
  all_goals exact .inl ⟨_, rfl⟩

theorem content_assignPlain {v : Value} (h : (assignPlain v s x).misfit = some m) :
    (assignPlain v s x).content = x := by
  rcases assignPlain_cases v s x with ⟨y, hy⟩ | ⟨m', hm'⟩
  · rw [hy] at h
    cases h
  · rw [hm']
    rfl

theorem content_through {core : Shape → Native → Projection}
    (hcore : ∀ t y, t.Whole → (core t y).misfit = some m → (core t y).content = y)
    (hs : s.Whole) (hx : HasShape Γ s x) (h : (through Γ core s x).misfit = some m) :
    (through Γ core s x).content = x := by
  induction s generalizing x with
  | option s => exact hs.elim
  | boxed s ih =>
      cases hx with
      | boxed hy => exact congrArg Native.boxed (ih hs hy h)
  | _ => exact hcore _ x hs h

/-- Lists, maps and tables are left alone as nothing goes in before all has been
put together. -/
theorem content_assign {v : Value} (hs : s.Whole) (hx : HasShape Γ s x)
    (h : (assign Γ v s x).misfit = some m) : (assign Γ v s x).content = x := by
  cases v with
  | array items =>
      refine content_through ?_ hs hx h
      intro t y ht hy
      cases t with
      | list item =>
          cases hr : receiveItems Γ items item with
          | ok ys => simp only [hr] at hy; cases hy
          | error m => simp only [hr]; rfl
      | _ => exact content_assignPlain hy
  | struct members =>
      refine content_through ?_ hs hx h
      intro t y ht hy
      cases t with
      | map item =>
          cases hr : receiveMembers Γ members item with
          | ok es => simp only [hr] at hy; cases hy
          | error m => simp only [hr]; rfl
      | table item =>
          cases hr : receiveMembers Γ members item with
          | ok es => simp only [hr] at hy; cases hy
          | error m => simp only [hr]; rfl
      | record name => exact ht.elim
      | fault => exact ht.elim
      | _ => exact content_assignPlain hy
  | _ => exact content_through (fun _ _ _ hy => content_assignPlain hy) hs hx h

theorem content_project {v : Value} (hs : s.Whole) (hx : HasShape Γ s x)
    (h : (project Γ v s x).misfit = some m) : (project Γ v s x).content = x := by
  rw [project] at h ⊢
  split at h
  · cases h
  · rename_i hv
    rw [if_neg hv]
    exact content_assign hs hx h

theorem content_params {params : Params} (hs : s.Whole) (hx : HasShape Γ s x)
    (h : (params.project Γ s x).misfit = some m) : (params.project Γ s x).content = x := by
  match params with
  | [] => cases h
  | [v] => exact content_project hs hx h
  | _ :: _ :: _ => exact content_project hs hx h

end Native

namespace Codec

open Native (Schema Shape HasShape)

/-- Whether what has failed has left the slot as it was. -/
def Spares {α : Type} (r : Except Error α × Native) (x : Native) : Prop :=
  ∀ e, r.1 = .error e → r.2 = x

variable {Γ : Schema} {s : Shape} {x : Native}

theorem spares_error {α : Type} (e : Error) (x : Native) :
    Spares ((.error e, x) : Except Error α × Native) x := fun _ _ => rfl

theorem spares_projected {p : Native.Projection}
    (h : ∀ m, p.misfit = some m → p.content = x) : Spares (projected p) x := by
  intro e he
  obtain ⟨y, m⟩ := p
  cases m with
  | none => cases he
  | some m => exact h m rfl

theorem spares_params (hs : s.Whole) (hx : HasShape Γ s x) (params : Params) :
    Spares (projected (params.project Γ s x)) x :=
  spares_projected fun _ h => Native.content_params hs hx h

theorem spares_readValue (hs : s.Whole) (hx : HasShape Γ s x) (source : Source) :
    Spares (readValue Γ source s x) x := by
  rw [readValue, valueInto]
  cases received (Value.ofSource source) with
  | error e => exact spares_error e x
  | ok v => exact spares_projected fun _ h => Native.content_project hs hx h

theorem spares_readResponse (hs : s.Whole) (hx : HasShape Γ s x) (source : Source) :
    Spares (readResponse Γ source s x) x := by
  rw [readResponse, responseInto]
  cases received (Response.ofSource source) with
  | error e => exact spares_error e x
  | ok response =>
      dsimp only
      cases response.toFault with
      | error m => exact spares_error _ x
      | ok f =>
          cases f with
          | some f => exact spares_error _ x
          | none => exact spares_params hs hx response.params

theorem spares_readRequestInto (hs : s.Whole) (hx : HasShape Γ s x) (source : Source) :
    Spares (readRequestInto Γ source s x) x := by
  rw [readRequestInto]
  cases readRequest source with
  | error e => exact spares_error e x
  | ok request =>
      intro e he
      have hparams := spares_params hs hx request.2
      cases hr : (projected (request.2.project Γ s x)).1 with
      | error e' => exact hparams e' hr
      | ok _ =>
          change (projected (request.2.project Γ s x)).1.map _ = _ at he
          rw [hr] at he
          cases he

/-- What cannot be received, or cannot be received into the slot, leaves a slot
that is received whole as it was: a value, the parameters of a call, and all
that a codec reads from a source. -/
theorem failure_spares (hs : s.Whole) (hx : HasShape Γ s x) :
    (∀ v, Spares (projected (Native.project Γ v s x)) x) ∧
    (∀ params : Params, Spares (projected (params.project Γ s x)) x) ∧
    ∀ (c : Codec) (source : Source) (e : Error) (y : Native),
      ((c.run Γ (.readValue source s x)).1 = .received (.error e) y → y = x) ∧
      ((c.run Γ (.readResponse source s x)).1 = .received (.error e) y → y = x) ∧
      ((c.run Γ (.readRequestInto source s x)).1 = .requestInto (.error e) y → y = x) := by
  refine ⟨?_, spares_params hs hx, ?_⟩
  · intro v
    exact spares_projected fun _ h => Native.content_project hs hx h
  · intro c source e y
    obtain ⟨-, hrequest, hresponse, hvalue⟩ := c.run_reading (Γ := Γ) source s x
    rw [hrequest, hresponse, hvalue]
    refine ⟨?_, ?_, ?_⟩
    · intro h
      obtain ⟨he, rfl⟩ := Answer.received.inj h
      exact spares_readValue hs hx source e he
    · intro h
      obtain ⟨he, rfl⟩ := Answer.received.inj h
      exact spares_readResponse hs hx source e he
    · intro h
      obtain ⟨he, rfl⟩ := Answer.requestInto.inj h
      exact spares_readRequestInto hs hx source e he

/-- Two parameters for a list of links in a box: a link, and one behind which
one weighs too much.  Neither gets into the list, though the first fits and the
second has its own weight when the misfit is met. -/
theorem failure_spares_links :
    let links := Native.links
    let s : Shape := .boxed (.list (.record "Link"))
    let held : Native := .boxed (.list [links.default (.record "Link")])
    let params : Params :=
      [.struct [⟨"weight", .int 1⟩],
        .struct [⟨"weight", .int 7⟩, ⟨"next", .struct [⟨"weight", .int 2147483648⟩]⟩]]
    projected (params.project links s held)
      = (.error (Native.Misfit.outOfRange 2147483648 "i32").toError, held) := by
  intro links s held params
  have hlink : HasShape links (.record "Link") (links.default (.record "Link")) :=
    Native.hasShape_default Native.grounded_links _
  have hheld : HasShape links s held := by
    refine .boxed (.list ?_)
    intro x hx
    rwa [List.mem_singleton.mp hx]
  have hrefused : (projected (params.project links s held)).1
      = .error (Native.Misfit.outOfRange 2147483648 "i32").toError := rfl
  have hwhole : s.Whole := trivial
  obtain ⟨-, hparams, -⟩ := failure_spares hwhole hheld
  exact Prod.ext hrefused (hparams params _ hrefused)

end Codec

end XmlRpc
