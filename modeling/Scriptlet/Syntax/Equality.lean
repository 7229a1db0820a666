import Scriptlet.Value

namespace Scriptlet

mutual

def Node.same : Node → Node → Bool
  | .literal _ v, .literal _ w => v.alike w
  | .name _ x, .name _ y => x == y
  | .binary _ o a b, .binary _ o' a' b' => o == o' && a.same a' && b.same b'
  | .unary _ o a, .unary _ o' a' => o == o' && a.same a'
  | .assign _ x a, .assign _ y a' => x == y && a.same a'
  | .call _ f args, .call _ f' args' => f.same f' && Node.sameList args args'
  | .function d, .function d' => d.same d'
  | .program _ ss, .program _ ss' => Node.sameList ss ss'
  | .expression _ a, .expression _ a' => a.same a'
  | .declareVar _ x a, .declareVar _ y a' => x == y && a.same a'
  | .declareFunction _ d, .declareFunction _ d' => d.same d'
  | .block _ ss, .block _ ss' => Node.sameList ss ss'
  | .conditional _ c t e, .conditional _ c' t' e' =>
    c.same c' && t.same t' && Node.sameOption e e'
  | .loop _ c b, .loop _ c' b' => c.same c' && b.same b'
  | .ret _ v, .ret _ v' => Node.sameOption v v'
  | .hole _ s, .hole _ s' => s == s'
  | _, _ => false
termination_by structural n => n

def Definition.same : Definition → Definition → Bool
  | ⟨_, n, ps, _, b⟩, ⟨_, n', ps', _, b'⟩ => n == n' && ps == ps' && Node.sameList b b'
termination_by structural d => d

def Node.sameList : List Node → List Node → Bool
  | [], [] => true
  | a :: as, b :: bs => a.same b && Node.sameList as bs
  | _, _ => false
termination_by structural ns => ns

def Node.sameOption : Option Node → Option Node → Bool
  | none, none => true
  | some a, some b => a.same b
  | _, _ => false
termination_by structural n => n

end

end Scriptlet
