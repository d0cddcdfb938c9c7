import Xv6.Lib.Bytes

namespace Xv6

def nProc : ℕ := 64
def nOfile : ℕ := 16
def nFile : ℕ := 100
def nInode : ℕ := 50
def nDev : ℕ := 10
def rootDev : ℕ := 1
def maxArg : ℕ := 32
def maxOpBlocks : ℕ := 10
def logSize : ℕ := maxOpBlocks * 3
def nBuf : ℕ := maxOpBlocks * 3
def fsSize : ℕ := 1000

def bSize : ℕ := 1024

abbrev Block := Lib.Bytes bSize

def nlog : ℕ := logSize

end Xv6
