import Mathlib.Data.Option.Basic

/-!
# A memo of one entry

A computation remembers the last value it has computed, under a key that is rendered from its
arguments. A hit returns the remembered value, whoever asked for it. That cannot be told from
computing anew if arguments with one key have one value.
-/

namespace Shale.Memo

variable {Args Key Value : Type}

def fetch [DecidableEq Key] (keyOf : Args → Key) (compute : Args → Value)
    (entry : Option (Key × Value)) (args : Args) : Option (Key × Value) × Value :=
  match entry with
  | some (key, value) =>
    if key = keyOf args then (entry, value)
    else (some (keyOf args, compute args), compute args)
  | none => (some (keyOf args, compute args), compute args)

def Sound (keyOf : Args → Key) (compute : Args → Value) (asked : Args → Prop)
    (entry : Option (Key × Value)) : Prop :=
  ∀ key value, entry = some (key, value) →
    ∃ args, asked args ∧ key = keyOf args ∧ value = compute args

variable {keyOf : Args → Key} {compute : Args → Value} {asked : Args → Prop}
  {entry : Option (Key × Value)} {args : Args}

theorem sound_none : Sound keyOf compute asked none := by
  rintro key value ⟨⟩

theorem Sound.mono {wider : Args → Prop} (sound : Sound keyOf compute asked entry)
    (le : ∀ args, asked args → wider args) : Sound keyOf compute wider entry := by
  intro key value held
  obtain ⟨args, mem, keyed, computed⟩ := sound key value held
  exact ⟨args, le args mem, keyed, computed⟩

theorem sound_some (mem : asked args) :
    Sound keyOf compute asked (some (keyOf args, compute args)) := by
  rintro key value ⟨⟩
  exact ⟨args, mem, rfl, rfl⟩

theorem Sound.fetch [DecidableEq Key]
    (coherent : ∀ args args', asked args → asked args' → keyOf args = keyOf args' →
      compute args = compute args')
    (sound : Sound keyOf compute asked entry) (mem : asked args) :
    (fetch keyOf compute entry args).2 = compute args ∧
      Sound keyOf compute asked (fetch keyOf compute entry args).1 := by
  unfold Memo.fetch
  split
  case h_1 key value =>
    split
    case isTrue hit =>
      obtain ⟨args', earlier, keyed, computed⟩ := sound key value rfl
      exact ⟨computed.trans (coherent args' args earlier mem (keyed.symm.trans hit)), sound⟩
    case isFalse => exact ⟨rfl, sound_some mem⟩
  case h_2 => exact ⟨rfl, sound_some mem⟩

end Shale.Memo
