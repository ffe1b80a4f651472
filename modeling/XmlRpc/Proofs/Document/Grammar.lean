/-
# The grammar of documents

What documents are, as lists of tokens, and what they denote.  `ws` is one
blank text or nothing at all:

    document  ws declaration? ws root
    value     <value> </value>                                       nil
              <value> text </value>                                  string
              <value> ws typed ws </value>
    typed     <T> text? </T>                                         scalar
              <array> ws <data> (ws value)* ws </data> ws </array>   array
              <struct> (ws member)* ws </struct>                     struct
    member    <member> ws <name> text </name> ws value ws </member>
    params    <params> (ws <param> ws value ws </param>)* ws </params>
    call      <methodCall> ws <methodName> text? </methodName> (ws params)? ws
              </methodCall>
    response  <methodResponse> ws params ws </methodResponse>
              <methodResponse> ws <fault> ws value ws </fault> ws </methodResponse>

The text of a scalar must be one that its type accepts, and the value of a
fault is a struct.
-/
import XmlRpc.Document.Reader

namespace XmlRpc

namespace Document

open Markup (Token)

def startOf (tag : Tag) : Token := .startTag tag.label

def endOf (tag : Tag) : Token := .endTag tag.label

/-- Blanks that may stand between elements. -/
inductive Ws : List Token → Prop where
  | none : Ws []
  | blank {s : String} : Blank.isBlank s.toList = true → Ws [.text s]

/-- A text that may be missing, and what it says. -/
inductive OptionalText : List Token → String → Prop where
  | none : OptionalText [] ""
  | text (s : String) : OptionalText [.text s] s

def scalarTags : List Tag := [.string, .boolean, .int, .i4, .double, .base64, .dateTime]

mutual

inductive ValueForm : List Token → Value → Prop where
  | nil : ValueForm [startOf .value, endOf .value] .nil
  | text (s : String) : ValueForm [startOf .value, .text s, endOf .value] (.string s)
  | typed {w₁ ts w₂ : List Token} {v : Value} : Ws w₁ → TypedForm ts v → Ws w₂ →
      ValueForm (startOf .value :: (w₁ ++ (ts ++ (w₂ ++ [endOf .value])))) v

/-- An element inside a value. -/
inductive TypedForm : List Token → Value → Prop where
  | scalar {tag : Tag} {ts : List Token} {s : String} {v : Value} : tag ∈ scalarTags →
      OptionalText ts s → scalar tag s = .ok v →
      TypedForm (startOf tag :: (ts ++ [endOf tag])) v
  | array {w₁ ts w₂ w₃ : List Token} {vs : List Value} : Ws w₁ → ItemsForm ts vs → Ws w₂ → Ws w₃ →
      TypedForm (startOf .array :: (w₁ ++ startOf .data ::
        (ts ++ (w₂ ++ endOf .data :: (w₃ ++ [endOf .array]))))) (.array vs)
  | struct {ts w : List Token} {ms : List Member} : MembersForm ts ms → Ws w →
      TypedForm (startOf .struct :: (ts ++ (w ++ [endOf .struct]))) (.struct ms)

inductive ItemsForm : List Token → List Value → Prop where
  | nil : ItemsForm [] []
  | cons {w ts us : List Token} {v : Value} {vs : List Value} : Ws w → ValueForm ts v →
      ItemsForm us vs → ItemsForm (w ++ (ts ++ us)) (v :: vs)

inductive MembersForm : List Token → List Member → Prop where
  | nil : MembersForm [] []
  | cons {w₁ w₂ w₃ ts w₄ us : List Token} {name : String} {v : Value} {ms : List Member} :
      Ws w₁ → Ws w₂ → Ws w₃ → ValueForm ts v → Ws w₄ → MembersForm us ms →
      MembersForm (w₁ ++ startOf .member :: (w₂ ++ startOf .name :: .text name :: endOf .name ::
        (w₃ ++ (ts ++ (w₄ ++ endOf .member :: us))))) (⟨name, v⟩ :: ms)

end

/-- Parameters without the element around them. -/
inductive ParamListForm : List Token → Params → Prop where
  | nil : ParamListForm [] []
  | cons {w₁ w₂ ts w₃ us : List Token} {v : Value} {vs : Params} : Ws w₁ → Ws w₂ →
      ValueForm ts v → Ws w₃ → ParamListForm us vs →
      ParamListForm (w₁ ++ startOf .param :: (w₂ ++ (ts ++ (w₃ ++ endOf .param :: us)))) (v :: vs)

inductive ParamsForm : List Token → Params → Prop where
  | mk {ts w : List Token} {vs : Params} : ParamListForm ts vs → Ws w →
      ParamsForm (startOf .params :: (ts ++ (w ++ [endOf .params]))) vs

/-- Parameters with the blanks before them, which may be missing. -/
inductive OptionalParams : List Token → Params → Prop where
  | none : OptionalParams [] []
  | params {w ts : List Token} {vs : Params} : Ws w → ParamsForm ts vs →
      OptionalParams (w ++ ts) vs

inductive CallForm : List Token → Call → Prop where
  | mk {w₁ name ps w₂ : List Token} {method : String} {params : Params} : Ws w₁ →
      OptionalText name method → OptionalParams ps params → Ws w₂ →
      CallForm (startOf .methodCall :: (w₁ ++ startOf .methodName :: (name ++ endOf .methodName ::
        (ps ++ (w₂ ++ [endOf .methodCall]))))) ⟨method, params⟩

inductive ResponseForm : List Token → Response → Prop where
  | params {w₁ ts w₂ : List Token} {vs : Params} : Ws w₁ → ParamsForm ts vs → Ws w₂ →
      ResponseForm (startOf .methodResponse :: (w₁ ++ (ts ++ (w₂ ++ [endOf .methodResponse]))))
        ⟨vs, .nil⟩
  | fault {w₁ w₂ ts w₃ w₄ : List Token} {v : Value} : Ws w₁ → Ws w₂ → ValueForm ts v →
      v.kind = .struct → Ws w₃ → Ws w₄ →
      ResponseForm (startOf .methodResponse :: (w₁ ++ startOf .fault :: (w₂ ++ (ts ++
        (w₃ ++ endOf .fault :: (w₄ ++ [endOf .methodResponse])))))) ⟨[], v⟩

/-- What may stand before the root of a document. -/
inductive HeaderForm : List Token → Prop where
  | bare {w₁ w₂ : List Token} : Ws w₁ → Ws w₂ → HeaderForm (w₁ ++ w₂)
  | declared {w₁ w₂ : List Token} : Ws w₁ → Ws w₂ → HeaderForm (w₁ ++ .declaration :: w₂)

/-- A document with a root of some form. -/
inductive DocumentForm {α : Type} (Root : List Token → α → Prop) : List Token → α → Prop where
  | mk {hs ts : List Token} {a : α} : HeaderForm hs → Root ts a → DocumentForm Root (hs ++ ts) a

end Document

end XmlRpc
