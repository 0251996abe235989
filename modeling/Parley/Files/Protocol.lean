/-
The layout of a protocol tree: transactions have a directory each below the directory of the
protocol, and Python stubs have a directory of their own.
-/
import Parley.Files.Path

namespace Parley

def transactionFile : String := "transaction.omt"

/-- A directory that holds drawings and no transactions. -/
def drawingsDirectory : String := "graphs"

structure Protocol where
  directory : String
  stubs : String
deriving DecidableEq, Repr

namespace Protocol

def defaultDirectory : String := "./protocol"

def defaultStubs : String := "./simulations/transactions"

def default : Protocol := ⟨defaultDirectory, defaultStubs⟩

def transactions (protocol : Protocol) : String := Path.join protocol.directory "transactions"

end Protocol

end Parley
